import Mathlib.Data.List.Flatten
import ArrayShapes.Proofs.Syntax.Caret

/-!
What a walk reaches. A walk that is kept out of some nodes reaches the nodes below with none of those in
between, in the order of the source.
-/

namespace ArrayShapes

namespace Syntax

namespace Node

variable {n m p c : Node} {d : Document} {enter keep : Node → Bool}

/-! ### Nodes above -/

theorem above_suffix (h : p ∈ m.above) : p :: p.above <:+ m.above := by
  obtain ⟨d, t, place⟩ := m
  change p ∈ ancestorsFrom d place at h
  change _ <:+ ancestorsFrom d place
  induction place with
  | root => cases h
  | inside parent place before after ih =>
      rcases List.mem_cons.1 h with rfl | h
      · exact List.suffix_refl _
      · exact (ih h).trans (List.suffix_cons _ _)

theorem above_trans {q : Node} (hp : p ∈ m.above) (hq : q ∈ p.above) : q ∈ m.above :=
  (above_suffix hp).subset (List.mem_cons_of_mem p hq)

/-- A node above another has more below it. -/
theorem size_lt_of_mem_above (hm : m ∈ d.root.descendants) :
    ∀ p ∈ m.above, m.tree.size < p.tree.size := by
  revert m
  apply descendants_induction
  · intro p hp
    cases hp
  · intro p _ ih c hc q hq
    rw [above_of_mem_children hc] at hq
    have hlt := size_lt_of_mem_children hc
    rcases List.mem_cons.1 hq with rfl | hq
    · exact hlt
    · exact Nat.lt_trans hlt (ih q hq)

/-- Of two nodes at most one is above the other. -/
theorem not_mem_above (hm : m ∈ d.root.descendants) (hp : p ∈ m.above) : m ∉ p.above := by
  intro h
  exact Nat.lt_irrefl _ (size_lt_of_mem_above hm m (above_trans hp h))

/-- Nothing is between a node and its parent. -/
theorem not_mem_above_of_mem_children (hn : n ∈ d.root.descendants) (hc : c ∈ n.children) :
    ∀ p ∈ c.above, n ∉ p.above := by
  intro p hp hnp
  rw [above_of_mem_children hc] at hp
  rcases List.mem_cons.1 hp with rfl | hp
  · exact not_mem_above hn hnp hnp
  · exact not_mem_above hn hp hnp

theorem mem_descendants_of_mem_above (hm : m ∈ d.root.descendants) :
    ∀ p ∈ m.above, p ∈ d.root.descendants := by
  revert m
  apply descendants_induction
  · intro p hp
    cases hp
  · intro p hp ih c hc q hq
    rw [above_of_mem_children hc] at hq
    rcases List.mem_cons.1 hq with rfl | hq
    · exact hp
    · exact ih q hq

/-! ### Nodes below -/

theorem mem_descendants_of_mem_children (h : c ∈ n.children) : c ∈ n.descendants :=
  mem_descendants_iff.2 (.inr ⟨c, h, self_mem_descendants c⟩)

/-- The nodes below `n` that a walk gets to if it goes on only below nodes that it may enter. -/
inductive Reached (enter : Node → Bool) (n : Node) : Node → Prop
  | child {c : Node} (hc : c ∈ n.children) : Reached enter n c
  | inner {p c : Node} (hp : Reached enter n p) (henter : enter p = true) (hc : c ∈ p.children) :
      Reached enter n c

theorem Reached.head (hc : c ∈ n.children) (henter : enter c = true) (h : Reached enter c m) :
    Reached enter n m := by
  induction h with
  | child hm => exact .inner (.child hc) henter hm
  | inner _ hp hm ih => exact .inner ih hp hm

theorem reached_of_mem_walk (h : m ∈ walk enter keep n.children) :
    Reached enter n m ∧ keep m = true := by
  induction hsize : n.tree.size using Nat.strongRecOn generalizing n with
  | _ size ih =>
      subst hsize
      rw [walk_flatMap, List.mem_flatMap] at h
      obtain ⟨c, hc, hm⟩ := h
      rw [walk_cons, List.append_nil, List.mem_append] at hm
      rcases hm with hm | hm
      · split at hm
        · next hkeep =>
            rw [List.mem_singleton.1 hm]
            exact ⟨.child hc, hkeep⟩
        · cases hm
      · split at hm
        · next henter =>
            obtain ⟨hreached, hkeep⟩ := ih _ (size_lt_of_mem_children hc) hm rfl
            exact ⟨.head hc henter hreached, hkeep⟩
        · simp [walk, walkFrom] at hm

/-- Once a node is reached the walk goes over it. -/
theorem Reached.walk_subset (h : Reached enter n m) :
    walk enter keep [m] ⊆ walk enter keep n.children := by
  have hchild {p c : Node} (hc : c ∈ p.children) : walk enter keep [c] ⊆ walk enter keep p.children := by
    intro m hm
    rw [walk_flatMap]
    exact List.mem_flatMap.2 ⟨c, hc, hm⟩
  induction h with
  | child hc => exact hchild hc
  | @inner p c _ henter hc ih =>
      refine List.Subset.trans (hchild hc) (List.Subset.trans ?_ ih)
      rw [walk_cons, List.append_nil, if_pos henter]
      exact List.subset_append_right _ _

theorem mem_walk_iff_reached :
    m ∈ walk enter keep n.children ↔ Reached enter n m ∧ keep m = true := by
  refine ⟨reached_of_mem_walk, fun ⟨hreached, hkeep⟩ => hreached.walk_subset ?_⟩
  rw [walk_cons, if_pos hkeep]
  exact List.mem_cons_self

/-- A node below another is reached from it if everything between them may be entered. -/
theorem reached_iff (hm : m ∈ d.root.descendants) :
    Reached enter n m ↔ n ∈ m.above ∧ ∀ p ∈ m.above, n ∈ p.above → enter p = true := by
  constructor
  · intro h
    induction h with
    | @child c hc =>
        have habove : n ∈ c.above := by simp [above_of_mem_children hc]
        have hn := mem_descendants_of_mem_above hm n habove
        exact ⟨habove, fun p hp hnp => absurd hnp (not_mem_above_of_mem_children hn hc p hp)⟩
    | @inner p c _ henter hc ih =>
        obtain ⟨hn, hbetween⟩ :=
          ih (mem_descendants_of_mem_above hm p (by simp [above_of_mem_children hc]))
        rw [above_of_mem_children hc]
        refine ⟨List.mem_cons_of_mem p hn, fun q hq hnq => ?_⟩
        rcases List.mem_cons.1 hq with rfl | hq
        · exact henter
        · exact hbetween q hq hnq
  · revert m
    apply descendants_induction
    · rintro ⟨hn, -⟩
      cases hn
    · rintro p - ih c hc ⟨hn, hbetween⟩
      rw [above_of_mem_children hc] at hn hbetween
      rcases List.mem_cons.1 hn with rfl | hn
      · exact .child hc
      · exact .inner (ih ⟨hn, fun q hq => hbetween q (List.mem_cons_of_mem p hq)⟩)
          (hbetween p List.mem_cons_self hn) hc

theorem Reached.mem_descendants (h : Reached enter n m) : m ∈ n.descendants := by
  induction h with
  | child hc => exact mem_descendants_of_mem_children hc
  | inner _ _ hc ih => exact descendants_trans ih (mem_descendants_of_mem_children hc)

/-- What is below a node is what the node is above of. -/
theorem mem_descendants_iff_above (hn : n ∈ d.root.descendants) :
    m ∈ n.descendants ↔ m = n ∨ m ∈ d.root.descendants ∧ n ∈ m.above := by
  constructor
  · revert m
    apply descendants_induction
    · exact .inl rfl
    · rintro p hp ih c hc
      have hmem := descendants_trans (descendants_trans hn hp) (mem_descendants_of_mem_children hc)
      refine .inr ⟨hmem, ?_⟩
      rw [above_of_mem_children hc]
      rcases ih with rfl | ⟨-, ih⟩
      · exact List.mem_cons_self
      · exact List.mem_cons_of_mem p ih
  · rintro (rfl | ⟨hm, habove⟩)
    · exact self_mem_descendants _
    · have hreached : Reached (fun _ => true) n m := (reached_iff hm).2 ⟨habove, fun _ _ _ => rfl⟩
      exact hreached.mem_descendants

/-- A walk below a node keeps what is to be kept of the nodes that it may get to. -/
theorem mem_walk_iff (hn : n ∈ d.root.descendants) :
    m ∈ walk enter keep n.children ↔ m ∈ d.root.descendants ∧ n ∈ m.above ∧
      (∀ p ∈ m.above, n ∈ p.above → enter p = true) ∧ keep m = true := by
  rw [mem_walk_iff_reached]
  constructor
  · rintro ⟨hreached, hkeep⟩
    have hm := descendants_trans hn hreached.mem_descendants
    obtain ⟨habove, hbetween⟩ := (reached_iff hm).1 hreached
    exact ⟨hm, habove, hbetween, hkeep⟩
  · rintro ⟨hm, habove, hbetween, hkeep⟩
    exact ⟨(reached_iff hm).2 ⟨habove, hbetween⟩, hkeep⟩

/-! ### Source order -/

theorem descendants_sublist_flatMap {ns : List Node} (h : n ∈ ns) :
    n.descendants.Sublist (ns.flatMap descendants) :=
  List.sublist_flatten_of_mem (List.mem_map_of_mem h)

/-- The nodes below a node come in the same order as among all nodes. -/
theorem descendants_sublist (h : m ∈ n.descendants) : m.descendants.Sublist n.descendants := by
  induction hsize : n.tree.size using Nat.strongRecOn generalizing n with
  | _ size ih =>
      subst hsize
      rcases mem_descendants_iff.1 h with rfl | ⟨c, hc, hm⟩
      · exact List.Sublist.refl _
      · rw [descendants_eq n]
        refine .cons n ((ih _ (size_lt_of_mem_children hc) hm rfl).trans ?_)
        exact descendants_sublist_flatMap hc

theorem walk_singleton_sublist (enter keep : Node → Bool) (n : Node) :
    (walk enter keep [n]).Sublist n.descendants := by
  induction hsize : n.tree.size using Nat.strongRecOn generalizing n with
  | _ size ih =>
      subst hsize
      have hself : (if keep n then [n] else []).Sublist [n] := by split <;> simp
      have hbelow : (walk enter keep (if enter n then n.children else [])).Sublist
          (n.children.flatMap descendants) := by
        split
        · rw [walk_flatMap]
          exact .flatMap_right _ fun c hc => ih _ (size_lt_of_mem_children hc) c rfl
        · simp [walk, walkFrom]
      rw [walk_cons, List.append_nil, descendants_eq, ← List.singleton_append]
      exact hself.append hbelow

theorem walk_sublist (enter keep : Node → Bool) (n : Node) :
    (walk enter keep n.children).Sublist n.descendants := by
  rw [walk_flatMap, descendants_eq]
  exact .cons n (.flatMap_right _ fun c _ => walk_singleton_sublist enter keep c)

/-- A walk that does not go into what it keeps has all that is below it in source order. -/
theorem walk_flatMap_descendants_sublist (h : ∀ n, keep n = true → enter n = false) (n : Node) :
    ((walk enter keep n.children).flatMap descendants).Sublist (n.children.flatMap descendants) := by
  induction hsize : n.tree.size using Nat.strongRecOn generalizing n with
  | _ size ih =>
      subst hsize
      rw [walk_flatMap, List.flatMap_assoc]
      refine .flatMap_right _ fun c hc => ?_
      rw [walk_cons, List.append_nil]
      cases hkeep : keep c with
      | true => simp [h c hkeep, walk, walkFrom]
      | false =>
          cases enter c with
          | false => simp [walk, walkFrom]
          | true =>
              rw [descendants_eq c]
              exact .cons c (ih _ (size_lt_of_mem_children hc) c rfl)

end Node

theorem Document.tiles_tokens (number : Nat) (uri text : String) :
    Tiles 0 text.utf8ByteSize
      ((Document.parse number uri text).root.descendants.filterMap (·.tree.token?)) := by
  rw [Node.filterMap_token?_descendants, Document.root, Document.tokens_tree]
  simpa [Text.byteLength_toList] using (Scan.scan_reads text).tiles

/-- Tokens are met in the order in which they stand in the source. -/
theorem Document.pairwise_tokens (number : Nat) (uri text : String) :
    (Document.parse number uri text).root.descendants.Pairwise fun m n =>
      m.tokenKind?.isSome = true → n.tokenKind?.isSome = true → m.stop ≤ n.pos := by
  have htiles := (Document.tiles_tokens number uri text).pairwise_stop_le
  rw [List.pairwise_filterMap] at htiles
  refine htiles.imp fun {m n} h hm hn => ?_
  rw [Node.tokenKind?] at hm hn
  rw [Node.stop, Node.pos]
  cases hmt : m.tree with
  | phrase => simp [hmt, Tree.tokenKind?] at hm
  | token _ t =>
      cases hnt : n.tree with
      | phrase => simp [hnt, Tree.tokenKind?] at hn
      | token _ u => exact h t (by rw [hmt]; rfl) u (by rw [hnt]; rfl)

end Syntax

end ArrayShapes
