import ArrayShapes.Proofs.Syntax.Scene.Script

/-!
What the children of phrases are. Every parser of expressions leaves one operand, also where the text
is no expression at all; so those who look for the operands of a phrase find them where they count on
them.
-/

namespace ArrayShapes.Syntax

open ArrayShapes.Syntax.Parser Builder

/-! ### Children -/

/-- The children that are not blank are as the kind of the phrase asks for. -/
def Tree.IsAllowed (t : Tree) : Prop :=
  ∀ kind, t.phraseKind? = some kind → kind.allows (sketchList t.children) = true

theorem PhraseKind.slots?_of_isList {kind : PhraseKind} (h : kind.isList = true) :
    kind.slots? = none := by
  unfold isList at h
  split at h
  · rfl
  · rfl
  · cases h

namespace Builder

variable {base : Nat} {b b' : Builder} {found : List Notice}

/-- All nodes there are so far are as their kinds ask for. -/
def AllAllowed (b : Builder) : Prop := ∀ t ∈ Tree.preorderList b.pending.toList, t.IsAllowed

theorem AllAllowed.of_leaves {n : Nat} {ts : List Token} (h : AllAllowed b)
    (hts : b'.pending.toList = b.pending.toList ++ leaves n ts) : AllAllowed b' := by
  intro t ht
  rw [hts, Tree.preorderList_append] at ht
  rcases List.mem_append.1 ht with ht | ht
  · exact h t ht
  · obtain ⟨id, u, -, rfl⟩ := exists_eq_token_of_mem_leaves ht
    exact fun _ hkind => nomatch hkind

theorem AllAllowed.finish {kind : PhraseKind} {mark : Nat} (h : AllAllowed b)
    (hallows : kind.allows (b.nodes mark) = true) : AllAllowed (b.finish kind mark) := by
  intro t ht
  rcases mem_preorderList_finish ht with ht | rfl
  · exact h t ht
  · intro _ hkind
    cases hkind
    exact hallows

/-- Phrases are finished only where they are allowed. -/
theorem Grows.allAllowed (h : Grows base found b b') (hb : AllAllowed b) : AllAllowed b' := by
  have hflush {b : Builder} (hb : AllAllowed b) : AllAllowed b.flush := by
    obtain ⟨_, hts⟩ := flush_pending b
    exact hb.of_leaves hts
  have hlist {b : Builder} {kind : PhraseKind} {mark : Nat} (hb : AllAllowed b)
      (hkind : kind.isList = true) : AllAllowed (b.finish kind mark) :=
    hb.finish (PhraseKind.allows_of_slots?_eq_none (PhraseKind.slots?_of_isList hkind) _)
  induction h with
  | refl => exact hb
  | trans _ _ ih ih' => exact ih' (ih hb)
  | advance b =>
      obtain ⟨_, hts⟩ := advance_pending b
      exact hb.of_leaves hts
  | flush b => exact hflush hb
  | report b p =>
      rw [report_eq]
      exact hb
  | finish b kind allowed => exact hb.finish allowed
  | nested _ _ ih => exact ih hb
  | mark _ ih => exact ih (hflush hb)
  | list kind hkind _ ih => exact hlist (ih (hflush hb)) hkind
  | emptyList b kind hkind => exact hlist hb hkind

end Builder

/-! ### Parsers of expressions -/

/-- What an operand leaves on the stack: one node that is not blank, on top of what was there. -/
theorem Parser.Operand.pushes_one {p : Parser Unit} {b b' : Builder} (h : Operand p)
    (htidy : b.Tidy) (hp : p b = some ((), b')) :
    ∃ new o, b'.pending.toList = b.pending.toList ++ new ∧ new.filter (!·.isTrivia) = [o] ∧
      o.sketch.isOperand = true := by
  have hshows : Shows b.pending.size b ⟨b.sight, []⟩ :=
    ⟨htidy, Nat.le_refl _, rfl, nodes_size b⟩
  rcases h ⟨b.sight, []⟩ with hfails | ⟨_, found, σ', hleads, cs, hcs, hfilled⟩
  · cases hp.symm.trans (hfails _ b hshows)
  · obtain ⟨b₁, heq, hgrows, hb₁⟩ := hleads _ b hshows
    cases hp.symm.trans heq
    obtain ⟨o, rfl, ho⟩ := Slot.exists_eq_singleton_of_filledBy_one hfilled
    have hnodes : Tree.sketchList (b'.pending.toList.drop b.pending.size) = [o] :=
      hb₁.nodes_eq.trans hcs
    rw [Tree.sketchList_eq] at hnodes
    obtain ⟨t, rest, hfilter, ht, hrest⟩ := List.map_eq_cons_iff.1 hnodes
    rw [List.map_eq_nil_iff.1 hrest] at hfilter
    refine ⟨b'.pending.toList.drop b.pending.size, t, ?_, hfilter, by rwa [ht]⟩
    have hkeeps := (hgrows.keeps (Nat.le_refl _)).take_eq
    rw [List.take_of_length_le (l := b.pending.toList) (by simp)] at hkeeps
    rw [← hkeeps, List.take_append_drop]

namespace Grammar

/-- The parsers of expressions, from loose to tight. -/
def expressionParsers (rules : Rules) (least : Nat) : List (Parser Unit) :=
  [expression rules, assignment rules, looseKeyword rules, ternary rules, binary rules least,
    unary rules, postfixExpression rules, primary rules, nameExpression rules, arrayCreation rules,
    anonymousFunction rules, arrowFunction rules, objectCreation rules, matchExpression rules,
    parenthesized rules, shellCommand, constantName, simpleVariable rules]

theorem expressionParsers_operand (fuel least : Nat) :
    ∀ p ∈ expressionParsers (run fuel) least, Operand p := by
  have h := run_rulesSettled fuel
  simp only [expressionParsers, List.forall_mem_cons]
  exact ⟨expression_operand h, assignment_operand h, looseKeyword_operand h, ternary_operand h,
    binary_operand h, unary_operand h, postfixExpression_operand h, primary_operand h,
    nameExpression_operand h, arrayCreation_operand h, anonymousFunction_operand h,
    arrowFunction_operand h, objectCreation_operand h, matchExpression_operand h,
    parenthesized_operand h, shellCommand_operand, constantName_operand, simpleVariable_operand h,
    by simp⟩

/-- Fuel for the tokens that are left is enough for all of them. -/
theorem expressionParsers_works (base k least : Nat) :
    ∀ p ∈ expressionParsers (run (fuelFor k)) least, Works base (k + 1) p := by
  have h := run_fuelFor_rulesWork k
  have hlate : RulesWork k (run (fuelFor k)) := fun rule _ => (h rule).late
  simp only [expressionParsers, List.forall_mem_cons]
  exact ⟨expression_works hlate (h _), assignment_works hlate (h _), (looseKeyword_eats h).works,
    ternary_works hlate (h _), binary_works hlate (h _),
    unary_works hlate (h _) fun hr hb _ => h .assignment _ hr hb,
    postfixExpression_works hlate (h _), primary_works hlate (h _), (nameExpression_eats h).works,
    (arrayCreation_eats h).works, (anonymousFunction_eats h).works, (arrowFunction_eats h).works,
    (objectCreation_eats h).works, (matchExpression_eats h).works, (parenthesized_eats h).works,
    shellCommand_eats.works, constantName_eats.works, simpleVariable_works hlate, by simp⟩

end Grammar

/-- Wherever an expression is asked for, one operand is put on top of the nodes that are there: every
parser of expressions has a result with the fuel for the tokens that are left, whatever they are. So
the children of every phrase in the tree of a source, blank text apart, fill the places that its kind
has for them. -/
theorem expressions_are_operands (number : Nat) (uri text : String) :
    (∀ (b : Builder) (least : Nat), b.Tidy → b.left = b.ahead.length →
      ∀ p ∈ Grammar.expressionParsers (Grammar.run (Grammar.fuelFor b.left)) least,
        ∃ b' new o, p b = some ((), b') ∧ b'.pending.toList = b.pending.toList ++ new ∧
          new.filter (!·.isTrivia) = [o] ∧ o.sketch.isOperand = true) ∧
    ∀ n ∈ (Document.parse number uri text).root.descendants, ∀ kind, n.phraseKind? = some kind →
      kind.allows (n.significant.map (·.tree.sketch)) = true := by
  refine ⟨fun b least htidy hleft p hp => ?_, fun n hn kind hkind => ?_⟩
  · obtain ⟨_, b', heq, -⟩ := Grammar.expressionParsers_works 0 b.left least p hp b
      ⟨Nat.zero_le _, hleft⟩ (Nat.lt_succ_self _)
    obtain ⟨new, o, hpending, hnew, ho⟩ :=
      (Grammar.expressionParsers_operand _ least p hp).pushes_one htidy heq
    exact ⟨b', new, o, heq, hpending, hnew, ho⟩
  · obtain ⟨b, hparse, hpending, -⟩ := Document.exists_builder number uri text
    obtain ⟨found, hgrows⟩ := parse_grows hparse
    have hstart : AllAllowed (ofTokens (scan text).tokens.toList text.utf8ByteSize) :=
      fun _ ht => nomatch ht
    have htree : n.tree ∈ (Document.parse number uri text).tree.preorder := by
      have hmem := List.mem_map_of_mem (f := Node.tree) hn
      rwa [Node.map_tree_descendants] at hmem
    have hallowed := hgrows.allAllowed hstart n.tree (by simpa [hpending, Tree.preorderList] using htree)
    have hsignificant : n.significant.map (·.tree.sketch) = Tree.sketchList n.tree.children := by
      rw [Tree.sketchList_eq, ← Node.map_tree_children, List.filter_map, List.map_map]
      rfl
    rw [hsignificant]
    exact hallowed kind hkind

end ArrayShapes.Syntax
