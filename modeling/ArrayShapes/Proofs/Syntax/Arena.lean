import ArrayShapes.Proofs.Syntax.Layout
import ArrayShapes.Proofs.Syntax.Links
import ArrayShapes.Proofs.Syntax.Navigation
import ArrayShapes.Proofs.Syntax.Scene.Script

/-!
How the nodes of a document hang together and where they stand in its text.
-/

namespace ArrayShapes.Syntax

/-! ### Offsets -/

namespace Tree.Fills

variable {all : List Token} {lo hi : Nat} {t : Tree}

theorem le_pos (h : t.Fills (Blank all) lo hi) : lo ≤ t.pos := by
  cases ht : t.isEmptyList with
  | true => exact (h.blank_pos ht).le
  | false => exact Nat.le_of_eq (h.pos_eq ht).symm

theorem le_stop (h : t.Fills (Blank all) lo hi) : hi ≤ t.stop := by
  have hstop := stop_eq t h
  cases ht : t.endsOpen with
  | true =>
      rw [ht] at hstop
      exact hstop.le
  | false =>
      rw [ht] at hstop
      exact Nat.le_of_eq hstop.symm

theorem pos_le_stop (h : t.Fills (Blank all) lo hi) : t.pos ≤ t.stop := by
  cases ht : t.isEmptyList with
  | true => exact Nat.le_of_eq (h.stop_eq_pos ht).symm
  | false =>
      rw [h.pos_eq ht]
      exact Nat.le_trans (tiles t h).le h.le_stop

/-- A phrase that has children starts with the first of them. -/
theorem pos_le_pos {c : Tree} (h : t.Fills (Blank all) lo hi) (hc : c ∈ t.children) :
    t.pos ≤ c.pos := by
  have ht : t.isEmptyList = false := by
    cases t with
    | token => rfl
    | phrase id kind pos stop cs =>
        cases cs with
        | nil => cases hc
        | cons => rfl
  obtain ⟨ts, us, hchildren⟩ := List.append_of_mem hc
  obtain ⟨mid, _, hts, hfills, _⟩ := h.children hchildren
  rw [h.pos_eq ht]
  exact Nat.le_trans (FillsList.tiles ts hts).le hfills.le_pos

end Tree.Fills

/-! ### Trees of sources -/

namespace Builder

variable {tokens : List Token} {sourceEnd : Nat}

theorem sourced_ofTokens (h : Tiles 0 sourceEnd tokens)
    (hfirst : ∀ t, tokens.head? = some t → t.isTrivia = false) :
    Sourced tokens (ofTokens tokens sourceEnd) :=
  ⟨tidy_ofTokens tokens sourceEnd, lossless_ofTokens tokens sourceEnd, extent_ofTokens h hfirst⟩

theorem Sourced.rooted_of_fresh {all : List Token} {b : Builder} (h : Sourced all b)
    (hpending : b.pending.toList = []) : Rooted all 0 b := by
  obtain ⟨hfront, hpos⟩ := h.extent.fresh hpending
  rw [Rooted, hpending]
  exact ⟨0, rfl, hfront.symm, hpos⟩

theorem Sourced.fitting_of_fresh {all : List Token} {b : Builder} {V : Nat → Prop}
    (h : Sourced all b) (hend : V b.sourceEnd) (hpending : b.pending.toList = []) :
    Fitting all V b where
  sourced := h
  sourceEnd := hend
  nodes := by simp [hpending, Tree.preorderList]
  stop_le := by simp [hpending]
  lastStop_le := by simp [lastStop, hpending]

end Builder

/-- An offset between two characters of a text, or at either end of it. -/
def IsBoundary (text : String) (offset : Nat) : Prop := (String.Pos.Raw.mk offset).IsValid text

theorem slice?_of_mem_scan {text : String} {t : Token} (h : t ∈ (scan text).tokens.toList) :
    Text.slice? text t.pos t.stop = some t.text := by
  have hslice := (Scan.scan_reads text).slice [] rfl t h
  rwa [List.nil_append, String.ofList_toList] at hslice

theorem isBoundary_of_mem_scan {text : String} {t : Token} (h : t ∈ (scan text).tokens.toList) :
    IsBoundary text t.pos ∧ IsBoundary text t.stop := by
  obtain ⟨hpos, hstop, -⟩ := Text.slice?_eq_some_iff.1 (slice?_of_mem_scan h)
  exact ⟨hpos, hstop⟩

/-- Tokens fill the source from the first on, and no node ends behind its parent. -/
theorem Document.tree_layout (number : Nat) (uri text : String) :
    (∃ stop, (Document.parse number uri text).tree.Fills (Blank (scan text).tokens.toList) 0 stop) ∧
    ∀ t ∈ (Document.parse number uri text).tree.preorder, t.Fits (IsBoundary text) := by
  obtain ⟨b, hparse, hpending, -⟩ := Document.exists_builder number uri text
  obtain ⟨found, hgrows⟩ := Builder.parse_grows hparse
  have hreads := Scan.scan_reads text
  have htiles : Tiles 0 text.utf8ByteSize (scan text).tokens.toList := by
    simpa [Text.byteLength_toList] using hreads.tiles
  have hstart := Builder.sourced_ofTokens htiles hreads.head_not_isTrivia
  constructor
  · have hrooted := hgrows.rooted hstart (Nat.zero_le _) (hstart.rooted_of_fresh rfl)
    have hfills := hrooted.fills
    rw [hpending, Tree.fillsList_singleton] at hfills
    exact ⟨_, hfills⟩
  · have hend : IsBoundary text text.utf8ByteSize := String.Pos.Raw.isValid_rawEndPos
    have hfitting := hgrows.moves.preserves (·.fitting fun _ ht => isBoundary_of_mem_scan ht)
      (hstart.fitting_of_fresh hend rfl)
    simpa [hpending, Tree.preorderList] using hfitting.nodes

/-- The nodes of a document are in its arena. -/
theorem Document.holds (number : Nat) (uri text : String) :
    (Document.parse number uri text).arena.Holds [(Document.parse number uri text).tree] := by
  obtain ⟨b, hparse, hpending, -, -, harena, -⟩ := Document.exists_builder number uri text
  have hfiled := (built_of_parse hparse).moves.preserves Builder.Move.filed
    (Builder.filed_ofTokens _ _)
  rwa [Builder.Filed, hpending, ← harena] at hfiled

/-- The tokens of the arena are those of the scan, in their order. -/
theorem Document.map_token_arena (number : Nat) (uri text : String) :
    (Document.parse number uri text).arena.tokens.toList.map Leaf.token =
      (scan text).tokens.toList := by
  have htoken (t : Tree) : t.leaf?.map Leaf.token = t.token? := by cases t <;> rfl
  rw [(Document.holds number uri text).tokens, List.map_filterMap]
  simp only [htoken]
  rw [Tree.filterMap_token?_preorderList, Tree.tokensList, Tree.tokensList, List.append_nil,
    Document.tokens_tree]

theorem Document.comments_eq (number : Nat) (uri text : String) :
    (Document.parse number uri text).comments =
      (scan text).tokens.toList.filter (·.kind = .documentComment) := by
  rw [← Document.map_token_arena number uri text]
  rfl

/-! ### Nodes of documents -/

section Nodes

variable {number : Nat} {uri text : String} {n c p : Node}

theorem Node.exists_fills (hn : n ∈ (Document.parse number uri text).root.descendants) :
    ∃ lo hi, n.tree.Fills (Blank (scan text).tokens.toList) lo hi := by
  revert n
  apply Node.descendants_induction
  · obtain ⟨stop, hfills⟩ := (Document.tree_layout number uri text).1
    exact ⟨0, stop, hfills⟩
  · rintro p - ⟨lo, hi, hfills⟩ c hc
    obtain ⟨ts, us, hchildren⟩ := List.append_of_mem (Node.tree_mem_of_mem_children hc)
    obtain ⟨mid, mid', -, hfills', -⟩ := hfills.children hchildren
    exact ⟨mid, mid', hfills'⟩

theorem Node.fits (hn : n ∈ (Document.parse number uri text).root.descendants) :
    n.tree.Fits (IsBoundary text) :=
  (Document.tree_layout number uri text).2 n.tree (Node.tree_mem_preorder hn)

theorem Document.link_root (number : Nat) (uri text : String) :
    (Document.parse number uri text).arena.links[(Document.parse number uri text).tree.id]? =
      some .loose :=
  (Document.holds number uri text).top _ (List.mem_singleton_self _)

/-- The link of a node has the parent and the place that one comes to it by. -/
theorem Node.link_of_mem_children (hp : p ∈ (Document.parse number uri text).root.descendants)
    (hc : c ∈ p.children) :
    (Document.parse number uri text).arena.links[c.tree.id]? = some ⟨some p.tree.id, c.index⟩ := by
  apply (Document.holds number uri text).child
  · rw [Tree.preorderList, Tree.preorderList, List.append_nil]
    exact Node.tree_mem_preorder hp
  · rw [← Node.map_tree_children, List.getElem?_map, Node.getElem?_index hc]
    rfl

theorem Document.perm_ids (number : Nat) (uri text : String) :
    ((Document.parse number uri text).root.descendants.map (·.tree.id)).Perm
      (List.range (Document.parse number uri text).nodes) := by
  obtain ⟨b, -, hpending, hlossless, -, harena, -⟩ := Document.exists_builder number uri text
  have hnumbers := hlossless.numbers
  rw [hpending, Tree.preorderList, Tree.preorderList, List.append_nil, Builder.made, ← harena]
    at hnumbers
  rw [Node.map_id_descendants]
  exact hnumbers

end Nodes

/-- A node among the children of its parent. -/
structure Node.HangsFrom (n p : Node) : Prop where
  link : n.document.arena.links[n.tree.id]? = some ⟨some p.tree.id, n.index⟩
  parent : n.parent? = some p
  child : p.children[n.index]? = some n
  next : n.next? = p.children[n.index + 1]?
  previous : n.previous? = if n.index = 0 then none else p.children[n.index - 1]?
  number : n.tree.id < p.tree.id
  starts : p.pos ≤ n.pos
  ends : n.stop ≤ p.stop

/-- The nodes that are made for a source hang together as a tree. Each but the root is the child of
one node, at the place that its link and its siblings on either side tell; its parent has a greater
number and covers it, and from parent to parent one gets to the root. No node leaves the source or
starts or ends inside a character. -/
theorem parse_hangs_together (number : Nat) (uri text : String) :
    (Document.parse number uri text).root.kind = .phrase .script ∧
    ((Document.parse number uri text).root.descendants.map (·.tree.id)).Perm
      (List.range (Document.parse number uri text).nodes) ∧
    (∀ n m : Node, n.next? = some m ↔ m.previous? = some n) ∧
    ∀ n ∈ (Document.parse number uri text).root.descendants,
      n.pos ≤ n.stop ∧ n.stop ≤ text.utf8ByteSize ∧
      IsBoundary text n.pos ∧ IsBoundary text n.stop ∧
      (n :: n.above).getLast? = some (Document.parse number uri text).root ∧
      ((n = (Document.parse number uri text).root ∧
          (Document.parse number uri text).arena.links[n.tree.id]? = some .loose) ∨
        ∃ p ∈ (Document.parse number uri text).root.descendants, n.HangsFrom p ∧
          ((Document.parse number uri text).root.descendants.flatMap Node.children).filter
            (·.same n) = [n]) := by
  have hids := Document.perm_ids number uri text
  have hkind : (Document.parse number uri text).root.kind = .phrase .script := by
    obtain ⟨_, -, -, -, -, -, _, _, htree⟩ := Document.exists_builder number uri text
    simp [Document.root, Node.kind, htree, Tree.kind]
  refine ⟨hkind, hids, fun _ _ => Node.next?_eq_some_iff, fun n hn => ?_⟩
  obtain ⟨lo, hi, hfills⟩ := Node.exists_fills hn
  have hfits := Node.fits hn
  refine ⟨hfills.pos_le_stop, hfits.stop.le_utf8ByteSize, hfits.pos, hfits.stop,
    Node.getLast?_above hn, ?_⟩
  rcases Node.eq_or_mem_children hn with heq | ⟨p, hp, hc⟩
  · exact .inl ⟨heq, heq ▸ Document.link_root number uri text⟩
  · obtain ⟨lo, hi, hfillsp⟩ := Node.exists_fills hp
    have htree := Node.tree_mem_of_mem_children hc
    obtain ⟨hnumber, hends⟩ := (Node.fits hp).children n.tree htree
    have hdocument : n.document = Document.parse number uri text :=
      Node.document_of_mem_descendants hn
    have hlink := Node.link_of_mem_children hp hc
    rw [← hdocument] at hlink
    have hhangs : n.HangsFrom p := ⟨hlink, Node.parent?_of_mem_children hc, Node.getElem?_index hc,
      Node.next?_eq_getElem? hc, Node.previous?_eq_getElem? hc, hnumber, hfillsp.pos_le_pos htree,
      hends⟩
    have honce := Node.filter_same_flatMap_children (hids.nodup_iff.2 List.nodup_range) hp hc
    exact .inr ⟨p, hp, hhangs, honce⟩

end ArrayShapes.Syntax
