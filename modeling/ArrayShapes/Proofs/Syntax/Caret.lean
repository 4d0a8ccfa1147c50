import ArrayShapes.Proofs.Syntax.Lookup

/-!
The token at a caret. Tokens are made as they stand in the source and tile it, so those that end
before a caret come first among them. The search by bisection stops at the first of the others, and
that is the one token that the caret sits in or right after.
-/

namespace ArrayShapes

theorem Tiles.exists_covering {start stop offset : Nat} {ts : List Token} (h : Tiles start stop ts)
    (hstart : start < offset) (hstop : offset ≤ stop) :
    ∃ t ∈ ts, t.pos < offset ∧ offset ≤ t.stop := by
  induction ts generalizing start with
  | nil =>
      have hempty : start = stop := h
      omega
  | cons t ts ih =>
      obtain ⟨rfl, -, hrest⟩ := h
      by_cases hfirst : offset ≤ t.stop
      · exact ⟨t, List.mem_cons_self, hstart, hfirst⟩
      · obtain ⟨u, hu, hcovers⟩ := ih hrest (Nat.not_le.1 hfirst)
        exact ⟨u, List.mem_cons_of_mem t hu, hcovers⟩

namespace Syntax

/-! ### Bisection -/

namespace Arena

variable {a : Arena} {stop offset : Nat} {l m : Leaf}

/-- If the tokens that end before the offset are those before place `j`, bisection finds `j`. -/
theorem endedBefore_eq {lo hi j : Nat} (hlo : lo ≤ j) (hhi : j ≤ hi)
    (h : ∀ i, lo ≤ i → i < hi → a.tokens[i]?.any (·.token.stop < offset) = decide (i < j)) :
    a.endedBefore offset lo hi = j := by
  fun_induction endedBefore a offset lo hi with
  | case1 lo hi hlt mid hended ih =>
      have hmid : mid < j := by simpa [hended] using (h mid (by omega) (by omega)).symm
      exact ih hmid hhi fun i hi => h i (by omega)
  | case2 lo hi hlt mid hended ih =>
      have hmid : ¬mid < j := by
        have := h mid (by omega) (by omega)
        simpa [hended] using this.symm
      exact ih hlo (by omega) fun i hlo hi => h i hlo (by omega)
  | case3 lo hi hle => omega

theorem stop_le_pos (h : Tiles 0 stop (a.tokens.toList.map Leaf.token)) {i j : Nat}
    (hl : a.tokens[i]? = some l) (hm : a.tokens[j]? = some m) (hlt : i < j) :
    l.token.stop ≤ m.token.pos := by
  obtain ⟨hi, rfl⟩ := Array.getElem?_eq_some_iff.1 hl
  obtain ⟨hj, rfl⟩ := Array.getElem?_eq_some_iff.1 hm
  exact List.pairwise_iff_getElem.1 (List.pairwise_map.1 h.pairwise_stop_le) i j hi hj hlt

/-- The search finds a token exactly if the caret sits in it or right after it. -/
theorem tokenAt?_eq_some_iff (h : Tiles 0 stop (a.tokens.toList.map Leaf.token)) (hpos : 0 < offset) :
    a.tokenAt? offset = some l ↔
      l ∈ a.tokens.toList ∧ l.token.pos < offset ∧ offset ≤ l.token.stop := by
  rw [tokenAt?, if_neg (Nat.ne_of_gt hpos), Option.filter_eq_some_iff]
  constructor
  · rintro ⟨hl, hcovers⟩
    rw [← Array.getElem?_toList] at hl
    exact ⟨List.mem_of_getElem? hl, by simpa using hcovers⟩
  · rintro ⟨hl, hcovers⟩
    obtain ⟨j, hj⟩ := List.mem_iff_getElem?.1 hl
    rw [Array.getElem?_toList] at hj
    have hsize := (Array.getElem?_eq_some_iff.1 hj).1
    refine ⟨?_, by simpa using hcovers⟩
    rw [endedBefore_eq (Nat.zero_le j) (Nat.le_of_lt hsize), hj]
    intro i _ hi
    have hu := Array.getElem?_eq_getElem hi
    have hstop : a.tokens[i].token.pos ≤ a.tokens[i].token.stop := Nat.le_add_right ..
    rw [hu, Option.any_some, decide_eq_decide]
    -- tokens before `l` end where it starts or earlier, and those behind it end where it does or later
    rcases Nat.lt_trichotomy i j with hlt | rfl | hlt
    · have := stop_le_pos h hu hj hlt
      omega
    · cases hu.symm.trans hj
      omega
    · have := stop_le_pos h hj hu hlt
      omega

end Arena

/-! ### Token nodes -/

theorem Node.isSome_tokenKind? (n : Node) : n.tokenKind?.isSome = n.tree.leaf?.isSome := by
  rw [tokenKind?]
  cases n.tree <;> rfl

theorem Node.head?_filterMap_leaf? (ns : List Node) :
    (ns.filterMap (·.tree.leaf?)).head? = (ns.find? (·.tokenKind?.isSome)).bind (·.tree.leaf?) := by
  induction ns with
  | nil => rfl
  | cons n ns ih =>
      cases hleaf : n.tree.leaf? with
      | none => simpa [List.filterMap_cons, isSome_tokenKind?, hleaf] using ih
      | some l => simp [isSome_tokenKind?, hleaf]

namespace Document

variable {number : Nat} {uri text : String} {n : Node} {l : Leaf} {offset : Nat}

/-- The tokens of the arena are those that a walk through the tree meets. -/
theorem tokens_arena (number : Nat) (uri text : String) :
    (Document.parse number uri text).arena.tokens.toList =
      (Document.parse number uri text).root.descendants.filterMap (·.tree.leaf?) := by
  have hwalk : (Document.parse number uri text).root.descendants.filterMap (·.tree.leaf?) =
      ((Document.parse number uri text).root.descendants.map Node.tree).filterMap Tree.leaf? := by
    rw [List.filterMap_map]
    rfl
  rw [hwalk, Node.map_tree_descendants, (Document.holds number uri text).tokens,
    Tree.preorderList, Tree.preorderList, List.append_nil]
  rfl

/-- The walk meets tokens in the order of their numbers, so a later token was made later. -/
theorem pairwise_id_tokens (number : Nat) (uri text : String) :
    ((Document.parse number uri text).root.descendants.filterMap (·.tree.leaf?)).Pairwise
      (·.id < ·.id) := by
  have hascending := (List.pairwise_append.1 (Document.holds number uri text).ascending).1
  rw [tokens_arena] at hascending
  exact List.pairwise_map.1 hascending

/-- A token of the arena is a node of the tree, and its number finds the node. -/
theorem exists_node_of_mem_tokens (hl : l ∈ (Document.parse number uri text).arena.tokens.toList) :
    ∃ n ∈ (Document.parse number uri text).root.descendants, n.tree = .token l.id l.token ∧
      (Document.parse number uri text).node? l.id = some n := by
  rw [tokens_arena] at hl
  obtain ⟨n, hn, hleaf⟩ := List.mem_filterMap.1 hl
  have htree := Tree.leaf?_eq_some_iff.1 hleaf
  have hnode := node?_of_mem hn
  rw [htree] at hnode
  exact ⟨n, hn, htree, hnode⟩

theorem tiles_tokens_arena (number : Nat) (uri text : String) :
    Tiles 0 text.utf8ByteSize
      ((Document.parse number uri text).arena.tokens.toList.map Leaf.token) := by
  rw [Document.map_token_arena]
  simpa [Text.byteLength_toList] using (Scan.scan_reads text).tiles

/-- Behind the start of a source, the token at a caret is any that the caret sits in or right after. So
there is no second one. -/
theorem tokenAt?_eq_some_iff (hpos : 0 < offset) :
    (Document.parse number uri text).tokenAt? offset = some n ↔
      n ∈ (Document.parse number uri text).root.descendants ∧ n.tokenKind?.isSome ∧
        n.pos < offset ∧ offset ≤ n.stop := by
  simp only [tokenAt?, Option.bind_eq_some_iff,
    Arena.tokenAt?_eq_some_iff (tiles_tokens_arena number uri text) hpos]
  constructor
  · rintro ⟨l, ⟨hl, hcovers⟩, hnode⟩
    obtain ⟨m, hm, htree, hnode'⟩ := exists_node_of_mem_tokens hl
    cases hnode.symm.trans hnode'
    refine ⟨hm, ?_, ?_⟩
    · simp [Node.isSome_tokenKind?, htree, Tree.leaf?]
    · simpa [Node.pos, Node.stop, htree, Tree.pos, Tree.stop] using hcovers
  · rintro ⟨hn, htoken, hcovers⟩
    rw [Node.isSome_tokenKind?, Option.isSome_iff_exists] at htoken
    obtain ⟨l, hleaf⟩ := htoken
    have htree := Tree.leaf?_eq_some_iff.1 hleaf
    have hnode := node?_of_mem hn
    rw [htree] at hnode
    refine ⟨l, ⟨?_, ?_⟩, hnode⟩
    · rw [tokens_arena]
      exact List.mem_filterMap.2 ⟨n, hn, hleaf⟩
    · simpa [Node.pos, Node.stop, htree, Tree.pos, Tree.stop] using hcovers

theorem tokenAt?_zero (number : Nat) (uri text : String) :
    (Document.parse number uri text).tokenAt? 0 =
      (Document.parse number uri text).root.descendants.find? (·.tokenKind?.isSome) := by
  rw [tokenAt?, Arena.tokenAt?, if_pos rfl, ← Array.getElem?_toList, ← List.head?_eq_getElem?,
    tokens_arena, Node.head?_filterMap_leaf?]
  cases hfind : (Document.parse number uri text).root.descendants.find? (·.tokenKind?.isSome) with
  | none => rfl
  | some n =>
      have hnode := node?_of_mem (List.mem_of_find?_eq_some hfind)
      have htoken := List.find?_some hfind
      rw [Node.isSome_tokenKind?, Option.isSome_iff_exists] at htoken
      obtain ⟨l, hleaf⟩ := htoken
      rw [Tree.leaf?_eq_some_iff.1 hleaf] at hnode
      rw [Option.bind_some, hleaf]
      exact hnode

end Document

/-- The token at a caret is the one token that the caret sits in or right after. In front of everything
it is the first token, and beyond the end or in an empty source there is none. -/
theorem tokenAt?_exact (number : Nat) (uri text : String) (offset : Nat) :
    if 0 < offset ∧ offset ≤ text.utf8ByteSize then
      ∃ n, (Document.parse number uri text).tokenAt? offset = some n ∧
        ∀ m, m = n ↔ m ∈ (Document.parse number uri text).root.descendants ∧
          m.tokenKind?.isSome ∧ m.pos < offset ∧ offset ≤ m.stop
    else if offset = 0 ∧ text ≠ "" then
      ∃ n, (Document.parse number uri text).tokenAt? offset = some n ∧
        (Document.parse number uri text).root.descendants.find? (·.tokenKind?.isSome) = some n
    else (Document.parse number uri text).tokenAt? offset = none := by
  have htiles := Document.tiles_tokens_arena number uri text
  split
  · next hwithin =>
      obtain ⟨t, ht, hcovers⟩ := htiles.exists_covering hwithin.1 hwithin.2
      obtain ⟨l, hl, rfl⟩ := List.mem_map.1 ht
      obtain ⟨n, -, -, hnode⟩ := Document.exists_node_of_mem_tokens hl
      have hat : (Document.parse number uri text).tokenAt? offset = some n := by
        rw [Document.tokenAt?, (Arena.tokenAt?_eq_some_iff htiles hwithin.1).2 ⟨hl, hcovers⟩]
        exact hnode
      refine ⟨n, hat, fun m => ?_⟩
      rw [← Document.tokenAt?_eq_some_iff hwithin.1, hat, Option.some.injEq, eq_comm]
  · next hbeyond =>
      split
      · next hstart =>
          obtain ⟨rfl, hne⟩ := hstart
          have hpos : 0 < text.utf8ByteSize :=
            Nat.pos_of_ne_zero (mt String.utf8ByteSize_eq_zero_iff.1 hne)
          obtain ⟨t, ht, -⟩ := htiles.exists_covering (Nat.zero_lt_one) hpos
          obtain ⟨l, hl, rfl⟩ := List.mem_map.1 ht
          obtain ⟨n, hn, htree, -⟩ := Document.exists_node_of_mem_tokens hl
          rw [Document.tokenAt?_zero]
          cases hfind : (Document.parse number uri text).root.descendants.find?
              (·.tokenKind?.isSome) with
          | none =>
              have hnone := List.find?_eq_none.1 hfind n hn
              simp [Node.isSome_tokenKind?, htree, Tree.leaf?] at hnone
          | some m => exact ⟨m, rfl, rfl⟩
      · next hempty =>
          rw [Option.eq_none_iff_forall_ne_some]
          intro n hn
          rcases Nat.eq_zero_or_pos offset with rfl | hpos
          · have htext : text = "" := by simpa using hempty
            subst htext
            have htokens := List.map_eq_nil_iff.1 htiles.eq_nil
            rw [Document.tokenAt?, Arena.tokenAt?, if_pos rfl, ← Array.getElem?_toList, htokens] at hn
            cases hn
          · obtain ⟨hmem, -, -, hle⟩ := (Document.tokenAt?_eq_some_iff hpos).1 hn
            have hsize := (Node.fits hmem).stop.le_utf8ByteSize
            exact hbeyond ⟨hpos, Nat.le_trans hle hsize⟩

end Syntax

end ArrayShapes
