import ArrayShapes.Proofs.Syntax.Arena

/-!
Nodes by their numbers. The links of a node lead up to the root, and the places noted on the way lead
back down to it. So a number finds the one node that has it, and numbers that were not given find none.
-/

namespace ArrayShapes.Syntax

theorem Node.follow?_append (n : Node) (is js : List Nat) :
    n.follow? (is ++ js) = (n.follow? is).bind (·.follow? js) := by
  induction is generalizing n with
  | nil => rfl
  | cons i is ih =>
      rw [List.cons_append, follow?, follow?]
      cases n.children[i]? with
      | none => rfl
      | some c => exact ih c

namespace Document

variable {number : Nat} {uri text : String} {n : Node}

/-- By induction down from the root: one more link leads up from a child, and one more place down. -/
theorem exists_way (hn : n ∈ (Document.parse number uri text).root.descendants) :
    ∃ way, (∀ below,
        (Document.parse number uri text).arena.way? n.tree.id below = some (way ++ below)) ∧
      (Document.parse number uri text).root.follow? way = some n := by
  revert n
  apply Node.descendants_induction
  · exact ⟨[], Arena.way?_of_loose (Document.link_root number uri text), rfl⟩
  · rintro p hp ⟨way, hup, hdown⟩ c hc
    have hnumber := ((Node.fits hp).children c.tree (Node.tree_mem_of_mem_children hc)).1
    refine ⟨way ++ [c.index], fun below => ?_, ?_⟩
    · rw [Arena.way?_of_link (Node.link_of_mem_children hp hc) hnumber, hup, List.append_assoc]
      rfl
    · rw [Node.follow?_append, hdown, Option.bind_some, Node.follow?, Node.getElem?_index hc]
      rfl

theorem node?_of_mem (hn : n ∈ (Document.parse number uri text).root.descendants) :
    (Document.parse number uri text).node? n.tree.id = some n := by
  obtain ⟨way, hup, hdown⟩ := exists_way hn
  rw [node?, hup, List.append_nil]
  exact hdown

/-- The node that a number finds is the one that has it. -/
theorem node?_eq_some_iff {id : Nat} :
    (Document.parse number uri text).node? id = some n ↔
      n ∈ (Document.parse number uri text).root.descendants ∧ n.tree.id = id := by
  constructor
  · intro h
    by_cases hid : id < (Document.parse number uri text).nodes
    · obtain ⟨m, hm, rfl⟩ := List.mem_map.1
        ((Document.perm_ids number uri text).mem_iff.2 (List.mem_range.2 hid))
      cases h.symm.trans (node?_of_mem hm)
      exact ⟨hm, rfl⟩
    · have hnone := Array.getElem?_eq_none (Nat.not_lt.1 hid)
      rw [node?, Arena.way?_of_none hnone] at h
      cases h
  · rintro ⟨hn, rfl⟩
    exact node?_of_mem hn

end Document

end ArrayShapes.Syntax
