import ArrayShapes.Proofs.Syntax.Arena

/-!
What the span of a node covers: the texts of its tokens, one after the other, and nothing else. There
is one exception. An empty list stands behind the blank text in front of the next token, while that
text comes after the list in the tree. So a phrase that ends in an empty list reaches over it.
-/

namespace ArrayShapes.Syntax

variable {all : List Token} {lo mid hi : Nat} {t u : Tree}

namespace Blank

theorem stop_unique {hi' : Nat} (h : Blank all lo hi) (h' : Blank all lo hi') : hi = hi' :=
  Tiles.stop_unique h h'

theorem eq_iff (h : Blank all lo hi) : hi = lo ↔ blankFrom all lo = [] := by
  constructor
  · rintro rfl
    exact h.eq_nil
  · intro hnil
    rw [Blank, hnil] at h
    exact Eq.symm h

end Blank

namespace Tree

theorem tokens_of_isEmptyList (h : t.isEmptyList = true) : t.tokens = [] := by
  cases t with
  | token => cases h
  | phrase id kind pos stop cs =>
      cases children_of_isEmptyList h
      rfl

theorem endsOpen_of_isEmptyList (h : t.isEmptyList = true) : t.endsOpen = true := by
  cases t with
  | token => cases h
  | phrase id kind pos stop cs =>
      cases children_of_isEmptyList h
      exact h

/-- The tokens of a tree stand from byte `lo` to byte `hi`. It starts and ends with them, unless it
starts or ends with an empty list: that stands where the blank text ends which starts there. -/
structure Covers (all : List Token) (lo hi : Nat) (t : Tree) : Prop where
  tokens : Tiles lo hi t.tokens
  pos : if t.isEmptyList then Blank all lo t.pos else t.pos = lo
  stop : if t.endsOpen then Blank all hi t.stop else t.stop = hi

theorem Fills.covers (h : t.Fills (Blank all) lo hi) : t.Covers all lo hi where
  tokens := Fills.tiles t h
  pos := by
    split
    · next ht => exact h.blank_pos ht
    · next ht => exact h.pos_eq (Bool.eq_false_iff.2 ht)
  stop := Fills.stop_eq t h

namespace Covers

theorem tiles (h : t.Covers all lo hi) :
    Tiles t.pos t.stop
      (t.tokens ++ if t.endsOpen && !t.isEmptyList then blankFrom all hi else []) := by
  obtain ⟨htokens, hpos, hstop⟩ := h
  cases hempty : t.isEmptyList with
  | true =>
      have hopen := endsOpen_of_isEmptyList hempty
      rw [tokens_of_isEmptyList hempty] at htokens ⊢
      cases htokens
      simp only [hempty, hopen, if_true] at hpos hstop
      rw [hpos.stop_unique hstop]
      simp [Tiles]
  | false =>
      simp only [hempty, Bool.false_eq_true, if_false] at hpos
      rw [hpos]
      cases hopen : t.endsOpen with
      | true =>
          simp only [hopen, if_true] at hstop
          exact htokens.append hstop
      | false =>
          simp only [hopen, Bool.false_eq_true, if_false] at hstop
          rw [hstop]
          simpa using htokens

/-- Whether one tree ends where the next one starts. -/
theorem stop_eq_pos_iff (h : t.Covers all lo mid) (h' : u.Covers all mid hi) :
    t.stop = u.pos ↔ t.endsOpen = u.isEmptyList ∨ blankFrom all mid = [] := by
  have hstop := h.stop
  have hpos := h'.pos
  cases hopen : t.endsOpen with
  | true =>
      simp only [hopen, if_true] at hstop
      cases hempty : u.isEmptyList with
      | true =>
          simp only [hempty, if_true] at hpos
          simpa using hstop.stop_unique hpos
      | false =>
          simp only [hempty, Bool.false_eq_true, if_false] at hpos
          rw [hpos]
          simpa using hstop.eq_iff
  | false =>
      simp only [hopen, Bool.false_eq_true, if_false] at hstop
      rw [hstop]
      cases hempty : u.isEmptyList with
      | true =>
          simp only [hempty, if_true] at hpos
          simpa using eq_comm.trans hpos.eq_iff
      | false =>
          simp only [hempty, Bool.false_eq_true, if_false] at hpos
          simpa using hpos.symm

end Covers

end Tree

section Nodes

variable {number : Nat} {uri text : String} {n : Node}

/-- A node and the next one cover the source without a gap. -/
theorem Node.exists_covers (hn : n ∈ (Document.parse number uri text).root.descendants) :
    ∃ lo hi, n.tree.Covers (scan text).tokens.toList lo hi ∧
      ∀ m, n.next? = some m → ∃ hi', m.tree.Covers (scan text).tokens.toList hi hi' := by
  rcases Node.eq_or_mem_children hn with rfl | ⟨p, hp, hc⟩
  · obtain ⟨lo, hi, hfills⟩ := Node.exists_fills hn
    exact ⟨lo, hi, hfills.covers, fun m hm => nomatch hm⟩
  · obtain ⟨lo, hi, hfills⟩ := Node.exists_fills hp
    obtain ⟨start, stop, -, hfills, hafter⟩ := hfills.children (Node.tree_children_eq_of_mem hc)
    refine ⟨start, stop, hfills.covers, fun m hm => ?_⟩
    obtain ⟨rest, hrest⟩ := List.head?_eq_some_iff.1 hm
    rw [hrest, List.map_cons] at hafter
    obtain ⟨hi', hfills', -⟩ := hafter
    exact ⟨hi', hfills'.covers⟩

theorem Node.mem_scan_of_mem_tokens {t : Token}
    (hn : n ∈ (Document.parse number uri text).root.descendants) (ht : t ∈ n.tree.tokens) :
    t ∈ (scan text).tokens.toList := by
  rw [← Node.filterMap_token?_descendants, List.mem_filterMap] at ht
  obtain ⟨m, hm, ht⟩ := ht
  rw [← Document.tokens_tree number uri text]
  change t ∈ (Document.parse number uri text).root.tree.tokens
  rw [← Node.filterMap_token?_descendants]
  exact List.mem_filterMap.2 ⟨m, Node.descendants_trans hn hm, ht⟩

/-- A token of the tree is one of the scan. -/
theorem Node.exists_mem_scan {kind : TokenKind}
    (hn : n ∈ (Document.parse number uri text).root.descendants) (hkind : n.isToken kind = true) :
    ∃ t ∈ (scan text).tokens.toList, t.kind = kind ∧ t.pos = n.pos ∧ t.text = n.text := by
  cases htree : n.tree with
  | phrase => simp [Node.isToken, Node.tokenKind?, htree, Tree.tokenKind?] at hkind
  | token id t =>
      have hscan := Node.mem_scan_of_mem_tokens hn (t := t) (by simp [htree, Tree.tokens])
      have hslice := slice?_of_mem_scan hscan
      refine ⟨t, hscan, ?_, ?_, ?_⟩
      · simpa [Node.isToken, Node.tokenKind?, htree, Tree.tokenKind?] using hkind
      · rw [Node.pos, htree]
        rfl
      · rw [Node.text, Node.pos, Node.stop, htree, Node.document_of_mem_descendants hn]
        exact (congrArg (Option.getD · "") hslice).symm

theorem mem_of_mem_blankFrom {t : Token} {offset : Nat} (h : t ∈ blankFrom all offset) : t ∈ all :=
  (List.dropWhile_suffix _).subset ((List.takeWhile_prefix _).subset h)

theorem Node.text_eq_join (hn : n ∈ (Document.parse number uri text).root.descendants)
    (h : n.tree.Covers (scan text).tokens.toList lo hi) :
    n.text = String.join ((n.tree.tokens ++ if n.tree.endsOpen && !n.tree.isEmptyList then
      blankFrom (scan text).tokens.toList hi else []).map Token.text) := by
  have hscan : ∀ t ∈ n.tree.tokens ++ (if n.tree.endsOpen && !n.tree.isEmptyList then
      blankFrom (scan text).tokens.toList hi else []), t ∈ (scan text).tokens.toList := by
    intro t ht
    rcases List.mem_append.1 ht with ht | ht
    · exact Node.mem_scan_of_mem_tokens hn ht
    · split at ht
      · exact mem_of_mem_blankFrom ht
      · cases ht
  have hslice := h.tiles.slice? (Node.fits hn).pos fun t ht => slice?_of_mem_scan (hscan t ht)
  have htext : n.document.text = text := by
    rw [Node.document_of_mem_descendants hn]
    rfl
  rw [Node.text, htext, Text.slice]
  exact congrArg (Option.getD · "") hslice

end Nodes

/-- The text of a node is that of its tokens, and the next node starts where they end. Only where
there is an empty list it is otherwise. A phrase that ends in one has the blank text after its tokens
as well; and a node ends where the next one starts if no blank text is between them, or if the one
ends in an empty list and the other is one, or neither is so. -/
theorem spans_cover_tokens (number : Nat) (uri text : String) :
    ∀ n ∈ (Document.parse number uri text).root.descendants, ∃ lo hi,
      n.tree.Covers (scan text).tokens.toList lo hi ∧
      n.text = String.join ((n.descendants.filterMap (·.tree.token?) ++
        if n.tree.endsOpen && !n.tree.isEmptyList then blankFrom (scan text).tokens.toList hi
        else []).map Token.text) ∧
      ∀ m, n.next? = some m →
        (∃ hi', m.tree.Covers (scan text).tokens.toList hi hi') ∧
        (n.stop = m.pos ↔ n.tree.endsOpen = m.tree.isEmptyList ∨
          blankFrom (scan text).tokens.toList hi = []) := by
  intro n hn
  obtain ⟨lo, hi, hcovers, hnext⟩ := Node.exists_covers hn
  refine ⟨lo, hi, hcovers, ?_, fun m hm => ?_⟩
  · rw [Node.filterMap_token?_descendants]
    exact Node.text_eq_join hn hcovers
  · obtain ⟨hi', hcovers'⟩ := hnext m hm
    exact ⟨⟨hi', hcovers'⟩, hcovers.stop_eq_pos_iff hcovers'⟩

/-- The list in an empty block ends behind the blank that comes after it in the tree. -/
theorem empty_block_overlaps :
    ∃ n ∈ (Document.parse 0 "" "<?php \x7b \x7d").root.descendants,
      (n.label, n.next?.map Node.label) = ("StatementList@8..8", some "Whitespace@7..8") ∧
      ∃ lo hi, n.tree.Covers (scan "<?php \x7b \x7d").tokens.toList lo hi ∧
        ∀ m, n.next? = some m → (n.stop = m.pos ↔ n.tree.endsOpen = m.tree.isEmptyList ∨
          blankFrom (scan "<?php \x7b \x7d").tokens.toList hi = []) := by
  have hlabel : ((Document.parse 0 "" "<?php \x7b \x7d").root.descendants.map
      fun n => (n.label, n.next?.map Node.label))[7]? =
        some ("StatementList@8..8", some "Whitespace@7..8") := by decide +kernel
  obtain ⟨n, hn, hlabel⟩ := List.mem_map.1 (List.mem_of_getElem? hlabel)
  obtain ⟨lo, hi, hcovers, -, hnext⟩ := spans_cover_tokens 0 "" "<?php \x7b \x7d" n hn
  exact ⟨n, hn, hlabel, lo, hi, hcovers, fun m hm => (hnext m hm).2⟩

end ArrayShapes.Syntax
