import ArrayShapes.Proofs.Syntax.Walk

/-!
Ways from node to node. The walk over a document meets a node before everything below it, and whoever
goes down to a child finds the way back: the parent, the siblings on both sides and their order.
-/

namespace ArrayShapes.Syntax.Node

variable {n m p c k : Node}

/-! ### Down -/

theorem toList_walkFrom (enter keep : Node → Bool) (forest : List Node) (done : Array Node) :
    (walkFrom enter keep forest done).toList = done.toList ++ walk enter keep forest := by
  -- by induction on the number of nodes to go; the nodes met so far are any
  induction hsize : Tree.sizeList (forest.map tree) using Nat.strongRecOn
    generalizing forest done with
  | _ size ih =>
      cases forest with
      | nil => simp [walk, walkFrom]
      | cons n rest =>
          have hlt : Tree.sizeList ((if enter n then n.children ++ rest else rest).map tree) < size := by
            have := Tree.sizeList_children_lt n.tree
            subst hsize
            split <;> simp [Tree.sizeList_append, Tree.sizeList] <;> omega
          rw [walk, walkFrom, walkFrom, ih _ hlt _ _ rfl, ih _ hlt _ _ rfl]
          split <;> simp

theorem walk_cons (enter keep : Node → Bool) (n : Node) (rest : List Node) :
    walk enter keep (n :: rest) =
      (if keep n then [n] else []) ++ walk enter keep ((if enter n then n.children else []) ++ rest) := by
  rw [walk, walkFrom, toList_walkFrom]
  split <;> split <;> simp

theorem walk_append (enter keep : Node → Bool) (ns ms : List Node) :
    walk enter keep (ns ++ ms) = walk enter keep ns ++ walk enter keep ms := by
  induction hsize : Tree.sizeList (ns.map tree) using Nat.strongRecOn generalizing ns with
  | _ size ih =>
      cases ns with
      | nil => simp [walk, walkFrom]
      | cons n rest =>
          have hlt : Tree.sizeList (((if enter n then n.children else []) ++ rest).map tree) < size := by
            have := Tree.sizeList_children_lt n.tree
            subst hsize
            split <;> simp [Tree.sizeList_append, Tree.sizeList] <;> omega
          rw [List.cons_append, walk_cons, walk_cons, ← List.append_assoc (if enter n then _ else _),
            ih _ hlt _ rfl, List.append_assoc]

/-- The nodes of a forest are walked over one by one. -/
theorem walk_flatMap (enter keep : Node → Bool) (forest : List Node) :
    walk enter keep forest = forest.flatMap fun n => walk enter keep [n] := by
  induction forest with
  | nil => simp [walk, walkFrom]
  | cons n rest ih =>
      rw [← List.singleton_append, walk_append, ih]
      rfl

theorem walk_eq_flatMap (forest : List Node) :
    walk (fun _ => true) (fun _ => true) forest = forest.flatMap descendants :=
  walk_flatMap _ _ forest

/-- A node comes first and is followed by what is below its children. -/
theorem descendants_eq (n : Node) : n.descendants = n :: n.children.flatMap descendants := by
  rw [descendants, walk_cons]
  simp [walk_eq_flatMap]

theorem self_mem_descendants (n : Node) : n ∈ n.descendants := by
  rw [descendants_eq]
  exact List.mem_cons_self

theorem mem_descendants_iff : m ∈ n.descendants ↔ m = n ∨ ∃ c ∈ n.children, m ∈ c.descendants := by
  rw [descendants_eq]
  simp

theorem size_lt_of_mem_children (h : c ∈ n.children) : c.tree.size < n.tree.size :=
  Tree.size_lt_of_mem_children (tree_mem_of_mem_children h)

/-- What holds of a node and goes over to children holds of all that is below. -/
theorem descendants_induction {P : Node → Prop} (hn : P n)
    (hstep : ∀ p ∈ n.descendants, P p → ∀ c ∈ p.children, P c) : ∀ m ∈ n.descendants, P m := by
  induction hsize : n.tree.size using Nat.strongRecOn generalizing n with
  | _ size ih =>
      intro m hm
      rcases mem_descendants_iff.1 hm with rfl | ⟨c, hc, hm⟩
      · exact hn
      · subst hsize
        refine ih _ (size_lt_of_mem_children hc) (hstep n (self_mem_descendants n) hn c hc) ?_ rfl m hm
        intro p hp
        exact hstep p (mem_descendants_iff.2 (.inr ⟨c, hc, hp⟩))

theorem descendants_trans (hm : m ∈ n.descendants) (hk : k ∈ m.descendants) :
    k ∈ n.descendants := by
  induction hsize : n.tree.size using Nat.strongRecOn generalizing n with
  | _ size ih =>
      rcases mem_descendants_iff.1 hm with rfl | ⟨c, hc, hm⟩
      · exact hk
      · subst hsize
        exact mem_descendants_iff.2 (.inr ⟨c, hc, ih _ (size_lt_of_mem_children hc) hm rfl⟩)

theorem eq_or_mem_children (hm : m ∈ n.descendants) :
    m = n ∨ ∃ p ∈ n.descendants, m ∈ p.children :=
  descendants_induction (P := fun m => m = n ∨ ∃ p ∈ n.descendants, m ∈ p.children) (.inl rfl)
    (fun p hp _ _ hc => .inr ⟨p, hp, hc⟩) m hm

/-- Every node but the first is met once more as the child of its parent. -/
theorem descendants_perm (n : Node) : n.descendants.Perm (n :: n.descendants.flatMap children) := by
  induction hsize : n.tree.size using Nat.strongRecOn generalizing n with
  | _ size ih =>
      have hbelow : ∀ cs : List Node, (∀ c ∈ cs, c.tree.size < size) →
          (cs.flatMap descendants).Perm (cs ++ cs.flatMap fun c => c.descendants.flatMap children) := by
        intro cs hcs
        induction cs with
        | nil => exact .nil
        | cons c cs ihcs =>
            have hc := ih _ (hcs c List.mem_cons_self) c rfl
            have hrest := ihcs fun c' hc' => hcs c' (List.mem_cons_of_mem c hc')
            simp only [List.flatMap_cons, List.cons_append]
            exact (hc.append hrest).trans (.cons c (List.perm_append_comm_assoc ..))
      subst hsize
      rw [descendants_eq, List.flatMap_cons, List.flatMap_assoc]
      exact .cons n (hbelow n.children fun c hc => size_lt_of_mem_children hc)

/-! ### Up and along -/

/-- How many siblings stand before the node. -/
def index (n : Node) : Nat := n.preceding.length

theorem exists_place_of_mem_siblingsAfter {d : Document} {parent : Tree} {place : Place}
    {before trees : List Tree} (h : n ∈ siblingsAfter d parent place before trees) :
    ∃ before' after, before'.reverse ++ n.tree :: after = before.reverse ++ trees ∧
      n = ⟨d, n.tree, .inside parent place before' after⟩ := by
  induction trees generalizing before with
  | nil => cases h
  | cons t ts ih =>
      rcases List.mem_cons.1 h with rfl | h
      · exact ⟨before, ts, rfl, rfl⟩
      · obtain ⟨before', after, htrees, hn⟩ := ih h
        exact ⟨before', after, by simpa using htrees, hn⟩

/-- A child stands between the siblings before it and those after it. -/
theorem exists_place_of_mem_children (h : c ∈ p.children) :
    ∃ before after, p.tree.children = before.reverse ++ c.tree :: after ∧
      c = ⟨p.document, c.tree, .inside p.tree p.place before after⟩ := by
  obtain ⟨before, after, htrees, hc⟩ := exists_place_of_mem_siblingsAfter h
  exact ⟨before, after, htrees.symm, hc⟩

theorem parent?_of_mem_children (h : c ∈ p.children) : c.parent? = some p := by
  obtain ⟨before, after, -, hc⟩ := exists_place_of_mem_children h
  rw [hc]
  rfl

theorem above_of_mem_children (h : c ∈ p.children) : c.above = p :: p.above := by
  obtain ⟨before, after, -, hc⟩ := exists_place_of_mem_children h
  rw [hc]
  rfl

theorem document_of_mem_children (h : c ∈ p.children) : c.document = p.document := by
  obtain ⟨before, after, -, hc⟩ := exists_place_of_mem_children h
  rw [hc]

theorem document_of_mem_descendants (h : m ∈ n.descendants) : m.document = n.document :=
  descendants_induction (P := fun m => m.document = n.document) rfl
    (fun _ _ hp _ hc => (document_of_mem_children hc).trans hp) m h

/-- From parent to parent one comes back to where the walk has started. -/
theorem getLast?_above (h : m ∈ n.descendants) :
    (m :: m.above).getLast? = (n :: n.above).getLast? := by
  refine descendants_induction (P := fun m => (m :: m.above).getLast? = (n :: n.above).getLast?) rfl
    (fun p _ hp c hc => ?_) m h
  rw [above_of_mem_children hc, List.getLast?_cons_cons]
  exact hp

theorem reverse_siblingsBefore_append (d : Document) (parent : Tree) (place : Place)
    (before after : List Tree) :
    (siblingsBefore d parent place before after).reverse ++
        siblingsAfter d parent place before after =
      siblingsAfter d parent place [] (before.reverse ++ after) := by
  induction before generalizing after with
  | nil => simp [siblingsBefore]
  | cons t ts ih => simpa [siblingsBefore, siblingsAfter] using ih (t :: after)

/-- The children of a node, seen from one of them. -/
theorem children_eq_of_mem (h : c ∈ p.children) :
    p.children = c.preceding.reverse ++ c :: c.following := by
  obtain ⟨before, after, htrees, hc⟩ := exists_place_of_mem_children h
  have hall := reverse_siblingsBefore_append p.document p.tree p.place before (c.tree :: after)
  rw [← htrees, siblingsAfter] at hall
  rw [hc]
  exact hall.symm

theorem tree_children_eq_of_mem (h : c ∈ p.children) :
    p.tree.children = c.preceding.reverse.map tree ++ c.tree :: c.following.map tree := by
  rw [← map_tree_children, children_eq_of_mem h]
  simp

theorem getElem?_index (h : c ∈ p.children) : p.children[c.index]? = some c := by
  rw [children_eq_of_mem h, index, List.getElem?_append_right (by simp)]
  simp

theorem next?_eq_getElem? (h : c ∈ p.children) : c.next? = p.children[c.index + 1]? := by
  rw [children_eq_of_mem h, index, List.getElem?_append_right (by simp)]
  simp [next?, List.head?_eq_getElem?]

theorem previous?_eq_getElem? (h : c ∈ p.children) :
    c.previous? = if c.index = 0 then none else p.children[c.index - 1]? := by
  rw [children_eq_of_mem h, index, previous?]
  cases c.preceding with
  | nil => rfl
  | cons m ms => simp

theorem previous?_of_next? (h : n.next? = some m) : m.previous? = some n := by
  obtain ⟨d, t, place⟩ := n
  cases place with
  | root => cases h
  | inside parent place before after =>
      cases after with
      | nil => cases h
      | cons u us =>
          cases h
          rfl

theorem next?_of_previous? (h : n.previous? = some m) : m.next? = some n := by
  obtain ⟨d, t, place⟩ := n
  cases place with
  | root => cases h
  | inside parent place before after =>
      cases before with
      | nil => cases h
      | cons u us =>
          cases h
          rfl

theorem next?_eq_some_iff : n.next? = some m ↔ m.previous? = some n :=
  ⟨previous?_of_next?, next?_of_previous?⟩

/-- Among nodes with different keys each is the same as itself only. -/
theorem filter_same {ns : List Node} (hkeys : (ns.map key).Nodup) (h : n ∈ ns) :
    ns.filter (·.same n) = [n] := by
  induction ns with
  | nil => cases h
  | cons m ms ih =>
      rw [List.map_cons, List.nodup_cons] at hkeys
      rcases List.mem_cons.1 h with rfl | h
      · have hrest : ms.filter (·.same n) = [] := by
          rw [List.filter_eq_nil_iff]
          intro k hk hsame
          exact hkeys.1 (List.mem_map.2 ⟨k, hk, of_decide_eq_true hsame⟩)
        rw [List.filter_cons_of_pos (by simp [same]), hrest]
      · have hne : m.key ≠ n.key := fun heq => hkeys.1 (heq ▸ List.mem_map_of_mem h)
        rw [List.filter_cons_of_neg (by simp [same, hne])]
        exact ih hkeys.2 h

/-- Where all numbers are different, a node is the child of its parent only, and only once. -/
theorem filter_same_flatMap_children (hids : (n.descendants.map (·.tree.id)).Nodup)
    (hp : p ∈ n.descendants) (hc : c ∈ p.children) :
    (n.descendants.flatMap children).filter (·.same c) = [c] := by
  have hbelow := ((descendants_perm n).map (·.tree.id)).nodup_iff.1 hids
  have hkeys : ((n.descendants.flatMap children).map key).Nodup := by
    have hnumbers : (((n.descendants.flatMap children).map key).map NodeKey.node).Nodup := by
      rw [List.map_map]
      exact (List.nodup_cons.1 hbelow).2
    exact List.Pairwise.of_map NodeKey.node (fun _ _ hne heq => hne (congrArg _ heq)) hnumbers
  exact filter_same hkeys (List.mem_flatMap.2 ⟨p, hp, hc⟩)

end ArrayShapes.Syntax.Node
