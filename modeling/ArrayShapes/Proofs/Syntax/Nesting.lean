import ArrayShapes.Proofs.Syntax.Arena
import ArrayShapes.Proofs.Syntax.Turns.Chain
import ArrayShapes.Proofs.Syntax.Turns.Statement

/-!
What the limit on nesting says about trees. On a way down from the root the steps to a child other than
the first one are bounded, apart from those that the grammar makes without entering a deeper level.
-/

namespace ArrayShapes

namespace Scan

theorem Reads.of_cut {mode next : Mode} {pos length : Nat} {cs : List Char} {ts : List Token}
    {ds : List Diagnostic} {kind : TokenKind} (h : Reads mode pos cs ts ds)
    (hcut : mode.cut cs = ⟨kind, length, [], next⟩) (hcs : cs ≠ []) :
    ∃ t us pos', ts = t :: us ∧ t.kind = kind ∧ Reads next pos' (cs.drop length) us ds := by
  cases h with
  | done => exact absurd rfl hcs
  | next fits rest =>
      rw [hcut] at rest ⊢
      exact ⟨_, _, _, rfl, rfl, rest⟩

theorem Reads.eq_nil {mode : Mode} {pos : Nat} {ts : List Token} {ds : List Diagnostic}
    (h : Reads mode pos [] ts ds) : ts = [] ∧ ds = [] := by
  cases h with
  | done => exact ⟨rfl, rfl⟩
  | next fits => exact absurd fits.le (Nat.not_le.2 fits.pos)

/-- A variable behind `k` dollar signs is read as that many dollars and a variable. -/
theorem Reads.chain {k pos : Nat} {ts : List Token} {ds : List Diagnostic}
    (h : Reads .code pos (List.replicate k '$' ++ ['$', 'a', ';']) ts ds) :
    ts.map Token.kind = Syntax.Grammar.chainKinds k ∧ ds = [] := by
  induction k generalizing pos ts with
  | zero =>
      have hvariable : Mode.code.cut ['$', 'a', ';'] = { kind := .variableName, length := 2 } := rfl
      have hend : Mode.code.cut [';'] = { kind := .semicolon, length := 1 } := rfl
      obtain ⟨t, us, pos', rfl, ht, h⟩ := h.of_cut hvariable (by simp)
      obtain ⟨u, us, pos', rfl, hu, h⟩ := h.of_cut hend (by simp)
      obtain ⟨rfl, hds⟩ := Reads.eq_nil h
      exact ⟨by simp [ht, hu, Syntax.Grammar.chainKinds], hds⟩
  | succ k ih =>
      have hcut : Mode.code.cut (List.replicate (k + 1) '$' ++ ['$', 'a', ';']) =
          { kind := .dollar, length := 1 } := by
        cases k <;> rfl
      obtain ⟨t, us, pos', rfl, ht, h⟩ := h.of_cut hcut (by simp)
      obtain ⟨hkinds, hds⟩ := ih h
      exact ⟨by rw [List.map_cons, ht, hkinds, Syntax.Grammar.chainKinds], hds⟩

/-- An opening tag and such a variable. -/
theorem scan_chain (k : Nat) :
    ((scan ("<?php " ++ String.ofList (List.replicate k '$') ++ "$a;")).tokens.toList.filter
        (!·.isTrivia)).map Token.kind = .openTag :: Syntax.Grammar.chainKinds k ∧
      (scan ("<?php " ++ String.ofList (List.replicate k '$') ++ "$a;")).diagnostics = #[] := by
  have hreads := scan_reads ("<?php " ++ String.ofList (List.replicate k '$') ++ "$a;")
  have htext : ("<?php " ++ String.ofList (List.replicate k '$') ++ "$a;").toList =
      ['<', '?', 'p', 'h', 'p', ' '] ++ (List.replicate k '$' ++ ['$', 'a', ';']) := by
    simp
  rw [htext] at hreads
  have htag : Mode.markup.cut (['<', '?', 'p', 'h', 'p', ' '] ++
      (List.replicate k '$' ++ ['$', 'a', ';'])) = { kind := .openTag, length := 5 } := by
    have hphp : (Text.lower (String.ofList ['p', 'h', 'p']) == "php") = true := by decide +kernel
    exact if_pos (Bool.and_eq_true_iff.2 ⟨hphp, rfl⟩)
  have hblank : Mode.code.cut (' ' :: (List.replicate k '$' ++ ['$', 'a', ';'])) =
      { kind := .whitespace, length := 1 } := by
    cases k <;> rfl
  obtain ⟨t, us, pos, ht, htkind, hreads⟩ := hreads.of_cut htag (by simp)
  obtain ⟨u, us, pos, rfl, hukind, hreads⟩ := hreads.of_cut hblank (by simp)
  obtain ⟨hkinds, hds⟩ := Reads.chain hreads
  have hchain : us.filter (!·.isTrivia) = us := by
    refine List.filter_eq_self.2 fun v hv => ?_
    have hmem : v.kind ∈ Syntax.Grammar.chainKinds k := hkinds ▸ List.mem_map_of_mem hv
    simpa [Token.isTrivia] using (Syntax.Grammar.not_isTrivia_of_mem_chainKinds hmem).1
  refine ⟨?_, Array.toList_eq_nil_iff.1 hds⟩
  rw [ht, List.filter_cons_of_pos, List.filter_cons_of_neg, hchain, List.map_cons, htkind, hkinds]
  · simp [Token.isTrivia, hukind, TokenKind.isTrivia]
  · simp [Token.isTrivia, htkind, TokenKind.isTrivia]

end Scan

namespace Syntax

namespace Node

/-- Whether the node is a child other than the first one that is not blank. -/
def isTurn (n : Node) : Bool :=
  match n.place with
  | .root => false
  | .inside _ _ before _ => n.isTrivia || before.any (!·.isTrivia)

/-- Whether the grammar goes from the parent to the node without entering a deeper level. -/
def isUnguarded (n : Node) : Bool :=
  match n.place with
  | .inside (.phrase _ kind _ _ cs) _ _ _ => Tree.isUnguarded kind cs n.tree
  | _ => false

end Node

/-- What is counted for the step to one of the children. -/
theorem Tree.turns_add_le_turnsList {free : Tree → Bool} {leading : Bool} {front rest : List Tree}
    {c : Tree} :
    c.turns + (if (!leading || front.any (!·.isTrivia) || c.isTrivia) && !free c then 1 else 0) ≤
      turnsList free leading (front ++ c :: rest) := by
  induction front generalizing leading with
  | nil =>
      refine Nat.le_trans (Nat.le_of_eq ?_) (Nat.le_max_left _ _)
      cases leading <;> by_cases hfree : free c <;> by_cases htrivia : c.isTrivia <;>
        simp [hfree, htrivia]
  | cons d front ih =>
      rw [List.cons_append, turnsList]
      refine Nat.le_trans (Nat.le_of_eq ?_) (Nat.le_trans ih (Nat.le_max_right _ _))
      simp [Bool.or_assoc]

/-- A step down takes from the turns that are left what it counts itself. -/
theorem Node.turns_le_of_mem_children {p c : Node} (hc : c ∈ p.children) :
    c.tree.turns + (if c.isTurn && !c.isUnguarded then 1 else 0) ≤ p.tree.turns := by
  obtain ⟨before, after, hchildren, hplace⟩ := exists_place_of_mem_children hc
  rw [hplace]
  cases hp : p.tree with
  | token id t => simp [hp, Tree.children] at hchildren
  | phrase id kind pos stop cs =>
      rw [hp, Tree.children] at hchildren
      subst hchildren
      rw [Tree.turns]
      refine Nat.le_trans (Nat.le_of_eq ?_) Tree.turns_add_le_turnsList
      simp [isTurn, isUnguarded, isTrivia, Bool.or_comm]

theorem Document.turns_le (number : Nat) (uri text : String) :
    (Document.parse number uri text).tree.turns ≤ 20 * maxDepth := by
  obtain ⟨b, -, -, hgrown, -⟩ :=
    Document.exists_builder_of_meets (Grammar.script_emits []) number uri text ⟨⟨[], rfl, by simp⟩, rfl⟩
  obtain ⟨_, rfl, hall⟩ := hgrown
  have hroot := hall _ (List.mem_singleton_self _)
  exact Nat.le_trans hroot (by decide)

theorem Document.guarded_turns_le (number : Nat) (uri text : String) :
    ∀ n ∈ (Document.parse number uri text).root.descendants,
      (n :: n.above).countP (fun m => m.isTurn && !m.isUnguarded) ≤ 20 * maxDepth := by
  intro n hn
  have hsum : (n :: n.above).countP (fun m => m.isTurn && !m.isUnguarded) + n.tree.turns ≤
      (Document.parse number uri text).tree.turns := by
    revert n hn
    refine Node.descendants_induction ?_ fun p _ hp c hc => ?_
    · simp [Node.isTurn, Node.above, Node.ancestorsFrom, Document.root]
    · have hstep := Node.turns_le_of_mem_children hc
      rw [List.countP_cons, Node.above_of_mem_children hc]
      omega
  have hle := Document.turns_le number uri text
  omega

/-! ### Sources with many turns -/

/-- A way down along the turns of a tree. -/
theorem Node.exists_turns {k : Nat} {n : Node} (h : n.tree.Hangs k) :
    ∃ m ∈ n.descendants, (n :: n.above).countP Node.isTurn + k ≤ (m :: m.above).countP Node.isTurn := by
  induction k generalizing n with
  | zero => exact ⟨n, n.self_mem_descendants, Nat.le_refl _⟩
  | succ k ih =>
      obtain ⟨front, t, rest, hchildren, hfront, ht⟩ := h
      let c : Node := ⟨n.document, t, .inside n.tree n.place front.reverse rest⟩
      have hc : c ∈ n.children := by
        have hsiblings :=
          reverse_siblingsBefore_append n.document n.tree n.place front.reverse (t :: rest)
        rw [List.reverse_reverse, ← hchildren] at hsiblings
        rw [children, ← hsiblings]
        exact List.mem_append_right _ (.head _)
      obtain ⟨m, hm, hle⟩ := ih (n := c) ht
      refine ⟨m, mem_descendants_iff.2 (.inr ⟨c, hc, hm⟩), ?_⟩
      have hturn : c.isTurn = true := by
        change (t.isTrivia || front.reverse.any (!·.isTrivia)) = true
        rw [List.any_reverse, hfront, Bool.or_true]
      rw [List.countP_cons_of_pos hturn, above_of_mem_children hc] at hle
      omega

theorem Document.exists_turns (k number : Nat) (uri : String) :
    (Document.parse number uri
        ("<?php " ++ String.ofList (List.replicate k '$') ++ "$a;")).diagnostics = [] ∧
      ∃ n ∈ (Document.parse number uri
          ("<?php " ++ String.ofList (List.replicate k '$') ++ "$a;")).root.descendants,
        k ≤ (n :: n.above).countP Node.isTurn := by
  obtain ⟨hkinds, hscan⟩ := Scan.scan_chain k
  generalize "<?php " ++ String.ofList (List.replicate k '$') ++ "$a;" = text at hkinds hscan ⊢
  have hname : .name ∉ .openTag :: Grammar.chainKinds k := by
    intro hmem
    rcases List.mem_cons.1 hmem with hmem | hmem
    · cases hmem
    · exact (Grammar.not_isTrivia_of_mem_chainKinds hmem).2 rfl
  obtain ⟨b, hparse, hrecords, ⟨t, ht, hhangs⟩, hfacing⟩ :=
    Document.exists_builder_of_meets Grammar.script_reaches number uri text
      (Builder.Facing.ofTokens _ hkinds hname)
  refine ⟨(Document.diagnostics_eq_nil_iff hparse hrecords).2 ⟨hscan, hfacing.clean⟩, ?_⟩
  rw [Tree.preorderList, Tree.preorderList, List.append_nil] at ht
  obtain ⟨n, hn, rfl⟩ : ∃ n ∈ (Document.parse number uri text).root.descendants, n.tree = t := by
    rw [← List.mem_map, Node.map_tree_descendants]
    exact ht
  obtain ⟨m, hm, hle⟩ := Node.exists_turns hhangs
  exact ⟨m, Node.descendants_trans hn hm, by omega⟩

/-- The limit on nesting bounds the turns that enter a deeper level, and only those: there are sources
without problems with as many turns as one likes. -/
theorem nesting_bounds_guarded_turns (number : Nat) (uri : String) :
    (∀ text, ∀ n ∈ (Document.parse number uri text).root.descendants,
      (n :: n.above).countP (fun m => m.isTurn && !m.isUnguarded) ≤ 20 * maxDepth) ∧
    ∀ k, ∃ text, (Document.parse number uri text).diagnostics = [] ∧
      ∃ n ∈ (Document.parse number uri text).root.descendants,
        k ≤ (n :: n.above).countP Node.isTurn :=
  ⟨Document.guarded_turns_le number uri, fun k => ⟨_, Document.exists_turns k number uri⟩⟩

/-- Two of the three turns above the name of a variable are not bounded. -/
theorem nesting_bounds_guarded_turns_of_chain :
    ∃ n ∈ (Document.parse 0 "" "<?php $$$a;").root.descendants,
      (n.label, (n :: n.above).countP Node.isTurn,
        (n :: n.above).countP fun m => m.isTurn && !m.isUnguarded) = ("VariableName@8..10", 3, 1) ∧
      (n :: n.above).countP (fun m => m.isTurn && !m.isUnguarded) ≤ 20 * maxDepth := by
  have hlabel : ((Document.parse 0 "" "<?php $$$a;").root.descendants.map fun n =>
      (n.label, (n :: n.above).countP Node.isTurn,
        (n :: n.above).countP fun m => m.isTurn && !m.isUnguarded))[11]? =
      some ("VariableName@8..10", 3, 1) := by decide +kernel
  obtain ⟨n, hn, hlabel⟩ := List.mem_map.1 (List.mem_of_getElem? hlabel)
  exact ⟨n, hn, hlabel, (nesting_bounds_guarded_turns 0 "").1 _ n hn⟩

end Syntax

end ArrayShapes
