import ArrayShapes.Proofs.Syntax.Scene.Declaration
import ArrayShapes.Syntax.Grammar.Expression

/-!
Expressions leave one operand each: a phrase, or a literal. Where an operand is wrapped after it has
been read, it is the only node behind the mark, so it is the first child of the phrase around it.
-/

namespace ArrayShapes.Syntax.Grammar

open ArrayShapes.Syntax.Parser Builder

variable {rules : Rules} {σ : Scene}

/-! ### Operators -/

@[simp]
theorem operatorAhead?_sight (b : Builder) : operatorAhead? b.sight = operatorAhead? b := by
  simp [operatorAhead?]

/-- The operator itself is the token between its operands. -/
theorem operator_adds {op : Operator} (hop : operatorAhead? σ.sight = some op) :
    Adds [.one (Sketch.isOperator op.kind)] σ fun _ => advance := by
  unfold operatorAhead? at hop
  split at hop
  · cases hop
    refine .advance_of_word (eq_of_beq ‹_›) fun text htext => ?_
    simp [Sketch.isOperator, htext]
  · obtain ⟨k, hk, hop⟩ := Option.bind_eq_some_iff.1 hop
    refine .advance_of_kind hk fun text => ?_
    cases k <;> cases hop <;> rfl

theorem operator_slots {b : Builder} {op : Operator} (hop : operatorAhead? b = some op) :
    op.kind.slots? = some [.one Sketch.isOperand, .one (Sketch.isOperator op.kind),
      .one Sketch.isOperand] := by
  unfold operatorAhead? at hop
  split at hop
  · cases hop
    rfl
  · obtain ⟨k, -, hop⟩ := Option.bind_eq_some_iff.1 hop
    cases k <;> cases hop <;> rfl

theorem logicalWord_adds (hword : σ.sight.isAnyKeyword ["and", "or", "xor"] = true) :
    Adds [.one (Sketch.isOperator .logicalExpression)] σ fun _ => advance := by
  obtain ⟨w, hw, hmem⟩ := (Option.any_eq_true ..).1 hword
  refine .advance_of_word hw fun text htext => ?_
  simp only [Sketch.isOperator, htext, hmem]
  simp

variable (h : RulesSettled rules)
include h

/-! ### From loose to tight -/

theorem expression_operand : Operand (expression rules) := by
  refine .nested (.mark_bind fun b => (h.assignment.first b).bind fun _ σ hσ => ?_)
  refine .loopWhile (isAnyKeyword_sight · _) (fun σ hσ hword => ?_) hσ
  refine ((logicalWord_adds hword).filled hσ).bind fun _ σ₁ h₁ => ?_
  refine ((h.assignment σ₁).filled h₁).bind fun _ σ₂ h₂ => ?_
  exact .finish_filled h₂ rfl

theorem ternary_operand : Operand (ternary rules) := by
  refine .mark_bind fun b => ((h.binary 0).first b).bind fun _ σ hσ => ?_
  refine .loopWhile (isAt_sight · _) (fun σ _ _ => Wraps.after .advance (fun _ => ?_) σ) hσ
  refine .get_bind (fun _ => .when h.assignment.settled fun _ => ?_) (by simp)
  exact .after expect_settled fun _ => .after h.assignment.settled fun _ => .finish rfl

theorem looseKeyword_operand : Operand (looseKeyword rules) := by
  refine .phrase rfl (.get_bind (fun _ => Settled.advance.bind fun _ => ?_) (by simp))
  refine .when skipOptionalKeyword_settled fun _ => .get_bind (fun _ => ?_) (by simp)
  exact .ite h.assignment.settled (.pure _)

theorem assignment_operand : Operand (assignment rules) := by
  refine .mark_bind fun b => .get_bind (fun b _ => by rw [isAnyKeyword_sight]) ?_
  refine .ite (fun _ => (looseKeyword_operand h).first b) fun _ => ?_
  refine ((ternary_operand h).first b).bind fun _ σ hσ => ?_
  refine .get_bind (fun b _ => by rw [kind?_sight]) ?_
  cases hk : σ.sight.kind? with
  | none => exact .pure hσ
  | some k =>
      cases k with
      | equals =>
          have hequals : Adds [.one (Sketch.isTokenIn [.equals])] σ fun _ => advance :=
            .advance_of_kind hk fun _ => rfl
          refine (hequals.filled hσ).bind fun _ σ₁ h₁ => ?_
          refine (skipOptional_adds.filled h₁).bind fun _ σ₂ h₂ => ?_
          refine ((h.assignment σ₂).filled h₂).bind fun _ σ₃ h₃ => ?_
          exact .finish_filled h₃ rfl
      | compoundAssignment =>
          exact Wraps.after .advance (fun _ => .after h.assignment.settled fun _ => .finish rfl) σ
      | _ => exact .pure hσ

theorem binary_operand {least : Nat} : Operand (binary rules least) := by
  refine .mark_bind fun b => (h.unary.first b).bind fun _ σ hσ => ?_
  refine .loop_invariant (fun σ hσ => .get_bind (fun b _ => by rw [operatorAhead?_sight]) ?_) hσ
  cases hop : operatorAhead? σ.sight with
  | none => exact .pure hσ
  | some op =>
      refine .ite (fun _ => .pure hσ) fun _ => ?_
      refine ((operator_adds hop).filled hσ).bind fun _ σ₁ h₁ => ?_
      refine ((h.binary _ σ₁).filled h₁).bind fun _ σ₂ h₂ => ?_
      exact (Settles.finish_filled h₂ (operator_slots hop)).bind fun _ _ h₃ => .pure h₃

/-! ### Postfix phrases -/

theorem simpleVariable_operand : Operand (simpleVariable rules) := by
  refine .phrase rfl (accept_settled.bind fun _ => .ite ?_ expect_settled)
  refine accept_settled.bind fun _ => .ite ?_ (.get_bind (fun _ => ?_) (by simp))
  · exact h.expression.settled.bind fun _ => expect_settled
  · exact .ite h.simpleVariable.settled .report

theorem bracedExpression_settled : Settled fun _ => bracedExpression rules :=
  Settled.advance.bind fun _ => h.expression.settled.bind fun _ => expect_settled

theorem memberName_operand : Operand (memberName rules) := by
  refine .phrase rfl (.get_bind (fun _ => .ite .advance ?_) (by simp))
  exact .ite h.simpleVariable.settled (.ite (bracedExpression_settled h) .report)

theorem argument_settled : Settled fun _ => argument rules := by
  refine .mark_bind (.get_bind (fun _ => .ite ?_ (.ite ?_ h.expression.settled)) (by simp))
  · exact Settled.advance.bind fun _ => h.expression.settled.bind fun _ => .finish rfl
  · refine Settled.advance.bind fun _ => Settled.advance.bind fun _ => ?_
    exact h.expression.settled.bind fun _ => .finish rfl

theorem arguments_operand : Operand (arguments rules) := by
  refine .phrase rfl (.loop (.get_bind (fun _ => .ite (.pure _) (.ite ?_ ?_)) (by simp)))
  · exact Settled.advance.bind fun _ => .pure _
  · exact (argument_settled h).progress.bind fun _ => .ite accept_settled (.pure _)

theorem argumentList_settled : Settled fun _ => argumentList rules :=
  expect_settled.bind fun _ => (arguments_operand h).settled.bind fun _ => expect_settled

theorem subscript_settles (hσ : IsOperand σ) (hk : σ.sight.kind? = some .openBracket) :
    Settles σ (fun start => subscript rules start) fun _ σ' => IsOperand σ' := by
  have hopen : Adds [.one (Sketch.isTokenIn [.openBracket])] σ fun _ => advance :=
    .advance_of_kind hk fun _ => rfl
  refine (hopen.filled hσ).bind fun _ σ₁ h₁ => .get_bind (fun b _ => by rw [isAt_sight]) ?_
  refine .when ((h.expression σ₁).optional.filled h₁) (h₁.skip _) fun _ σ₂ h₂ => ?_
  refine (expect_adds.filled h₂).bind fun _ σ₃ h₃ => ?_
  exact .finish_filled h₃ rfl

theorem memberAccess_wraps : Wraps fun start => memberAccess rules start := by
  refine .after .advance fun _ => .after (memberName_operand h).settled fun _ => ?_
  refine .get_bind (fun _ => .ite ?_ (.finish rfl)) (by simp)
  exact .after (argumentList_settled h) fun _ => .finish rfl

theorem scopedAccess_wraps : Wraps fun start => scopedAccess rules start := by
  refine .after .advance fun _ => .get_bind (fun _ => ?_) (by simp)
  refine .after (Operand.settled (.phrase rfl ?_)) fun _ => .get_bind (fun _ => ?_) (by simp)
  · refine .ite h.simpleVariable.settled (.get_bind (fun _ => ?_) (by simp))
    exact .ite (bracedExpression_settled h) expect_settled
  · refine .ite (.after (argumentList_settled h) fun _ => .finish rfl) ?_
    exact .ite (.finish rfl) (.finish rfl)

theorem postfixStep_settles (hσ : IsOperand σ) :
    Settles σ (fun start => postfixStep rules start) fun _ σ' => IsOperand σ' := by
  refine .get_bind (fun b _ => by rw [kind?_sight]) ?_
  cases hk : σ.sight.kind? with
  | none => exact .pure hσ
  | some k =>
      cases k with
      | openBracket => exact (subscript_settles h hσ hk).bind fun _ _ hσ' => .pure hσ'
      | arrow => exact (memberAccess_wraps h).bind_pure σ
      | nullsafeArrow => exact (memberAccess_wraps h).bind_pure σ
      | colonColon => exact (scopedAccess_wraps h).bind_pure σ
      | openParen =>
          exact Wraps.after (argumentList_settled h) (fun _ => (Wraps.finish rfl).bind_pure) σ
      | plusPlus => exact Wraps.after .advance (fun _ => (Wraps.finish rfl).bind_pure) σ
      | minusMinus => exact Wraps.after .advance (fun _ => (Wraps.finish rfl).bind_pure) σ
      | _ => exact .pure hσ

/-! ### Primary expressions -/

/-- An operand, by reference or not. -/
theorem reference_adds :
    Adds [.optional (Sketch.isTokenIn [.ampersand]), .one Sketch.isOperand] σ fun _ =>
      skipOptional .ampersand >>= fun _ => rules .expression :=
  skipOptional_adds.bind fun _ σ' => h.expression σ'

theorem arrayElement_operand : Operand (arrayElement rules) := by
  refine .phrase rfl fun σ => .mark_bind (.get_bind (fun b _ => by rw [isAtAny_sight]) ?_)
  refine .ite (fun hat => ?_) fun _ => ?_
  · have hsign := (Adds.advance_of_isAtAny (σ := ⟨σ.sight, []⟩) hat).optional
    refine (hsign.filled (.nil _)).bind fun _ σ₁ h₁ => ?_
    refine ((h.expression σ₁).filled h₁).bind fun _ σ₂ h₂ => ?_
    exact (Settles.finish_filled h₂ rfl).imp fun _ _ _ => trivial
  · refine (h.expression.first σ.sight).bind fun _ σ₁ h₁ => .get_bind (fun b _ => by rw [isAt_sight]) ?_
    refine .ite (fun _ => (Settles.finish_filled h₁ rfl).bind fun _ σ₂ _ => ?_) fun _ => ?_
    · have hvalue : Operand (phrase .arrayValue do skipOptional .ampersand; rules .expression) :=
        .phrase_filled rfl fun b => (reference_adds h).mono fun c hc => by
          cases c <;> simp_all [Sketch.isTokenIn]
      exact Settled.advance.bind (fun _ => hvalue.settled) σ₂
    · exact .finish (PhraseKind.allows_of_slots?_eq_some rfl (Slot.filledBy_of_tail h₁)) trivial

theorem arrayElements_operand {close : TokenKind} : Operand (arrayElements rules close) := by
  refine .phrase rfl (.loop (.get_bind (fun _ => .ite (.pure _) ?_) (by simp)))
  refine accept_settled.bind fun _ => ?_
  refine .ite (.pure _) ?_
  exact (arrayElement_operand h).settled.progress.bind fun _ => .ite accept_settled (.pure _)

theorem arrayCreation_operand : Operand (arrayCreation rules) := by
  have helements (close : TokenKind) (text : String) : Settled fun _ => (do
      arrayElements rules close
      expect close text : Parser Unit) :=
    (arrayElements_operand h).settled.bind fun _ => expect_settled
  refine .phrase rfl (accept_settled.bind fun _ => .ite (helements _ _) ?_)
  exact Settled.advance.bind fun _ => expect_settled.bind fun _ => helements _ _

theorem useClause_settled : Settled fun _ => useClause rules := by
  refine .get_bind (fun _ => .when ?_ fun _ => returnType_settled h) (by simp)
  refine Operand.settled (.phrase rfl ?_)
  refine Settled.advance.bind fun _ => expect_settled.bind fun _ =>
    .bind (.loop (.get_bind (fun _ => .ite (.pure _) (.mark_bind ?_)) (by simp))) fun _ => expect_settled
  refine skipOptional_settled.bind fun _ => expect?_settled.bind fun _ => .ite ?_ (.pure _)
  exact (Settled.finish rfl).bind fun _ => accept_settled

theorem anonymousFunction_operand : Operand (anonymousFunction rules) := by
  refine .phrase rfl (skipOptionalKeyword_settled.bind fun _ =>
    .bind (Operand.settled (.phrase rfl ?_)) fun _ => (functionBody_operand h).settled)
  refine Settled.advance.bind fun _ => skipOptional_settled.bind fun _ => ?_
  exact (parameterList_settled h).bind fun _ => useClause_settled h

theorem arrowFunction_operand : Operand (arrowFunction rules) := by
  refine .phrase rfl (skipOptionalKeyword_settled.bind fun _ =>
    .bind (Operand.settled (.phrase rfl ?_)) fun _ => expect_settled.bind fun _ => ?_)
  · refine Settled.advance.bind fun _ => skipOptional_settled.bind fun _ => ?_
    exact (parameterList_settled h).bind fun _ => returnType_settled h
  · exact Operand.settled (.phrase rfl h.assignment.settled)

theorem anonymousClass_operand : Operand (anonymousClass rules) := by
  refine .phrase rfl (Settled.advance.bind fun _ => .get_bind (fun _ => ?_) (by simp))
  refine .when (argumentList_settled h) fun _ => classHeritage_settled.bind fun _ => ?_
  exact (classBody_operand h).settled

theorem classDesignator_operand : Operand (classDesignator rules) := by
  refine .phrase rfl (.get_bind (fun _ => .ite qualifiedName_operand.settled ?_) (by simp))
  refine .ite h.simpleVariable.settled (.ite ?_ .report)
  exact Settled.advance.bind fun _ => h.expression.settled.bind fun _ => expect_settled

theorem objectCreation_operand : Operand (objectCreation rules) := by
  refine .phrase rfl (Settled.advance.bind fun _ => .get_bind (fun _ => ?_) (by simp))
  refine .ite (anonymousClass_operand h).settled ((classDesignator_operand h).settled.bind fun _ => ?_)
  exact .get_bind (fun _ => .ite (argumentList_settled h) (.pure _)) (by simp)

theorem matchConditions_settled : Settled fun _ => matchConditions rules := by
  refine .loop (h.expression.settled.bind fun _ => accept_settled.bind fun _ => .ite ?_ (.pure _))
  exact .get_bind (fun _ => .pure _) (by simp)

theorem matchArm_operand : Operand (matchArm rules) := by
  refine .phrase rfl (acceptKeyword_settled.bind fun _ => .when (matchConditions_settled h) fun _ => ?_)
  exact expect_settled.bind fun _ => h.expression.settled

theorem matchExpression_operand : Operand (matchExpression rules) := by
  refine .phrase rfl (Settled.advance.bind fun _ => expect_settled.bind fun _ => ?_)
  refine h.expression.settled.bind fun _ => expect_settled.bind fun _ => expect?_settled.bind fun _ => ?_
  refine .ite (.bind (.loop ?_) fun _ => expect_settled) (.pure _)
  refine .get_bind (fun _ => .ite (.pure _) ?_) (by simp)
  exact (matchArm_operand h).settled.progress.bind fun _ => .ite accept_settled (.pure _)

theorem parenthesized_operand : Operand (parenthesized rules) :=
  .phrase rfl (Settled.advance.bind fun _ => h.expression.settled.bind fun _ => expect_settled)

omit h in
theorem shellCommand_operand : Operand shellCommand :=
  .phrase rfl (Settled.advance.bind fun _ =>
    (Settled.loopWhile .advance fun b => by simp).bind fun _ => expect_settled)

omit h in
theorem constantName_operand : Operand constantName := by
  refine .mark_bind fun b => (qualifiedName_operand.first b).bind fun _ σ hσ => ?_
  refine .get_bind (fun b _ => by rw [isAtAny_sight]) ?_
  exact .ite (fun _ => Wraps.finish rfl σ) fun _ => .pure hσ

theorem nameExpression_operand : Operand (nameExpression rules) := by
  refine .get_bind (fun _ => .ite (arrayCreation_operand h) ?_) (by simp)
  refine .ite (anonymousFunction_operand h) ?_
  refine .ite (arrowFunction_operand h) (.ite (objectCreation_operand h) ?_)
  exact .ite (matchExpression_operand h) constantName_operand

theorem primary_operand : Operand (primary rules) := by
  intro σ
  have hliteral {k : TokenKind} (hk : σ.sight.kind? = some k) (hlit : k.isLiteral = true) :
      Adds [.one Sketch.isOperand] σ fun _ => advance := .advance_of_kind hk fun _ => hlit
  refine .get_bind (fun b _ => by rw [kind?_sight]) ?_
  cases hk : σ.sight.kind? with
  | none => exact missing_operand σ
  | some k =>
      cases k with
      | variableName => exact h.simpleVariable σ
      | dollar => exact h.simpleVariable σ
      | integerLiteral => exact hliteral hk rfl
      | floatingLiteral => exact hliteral hk rfl
      | stringLiteral => exact hliteral hk rfl
      | heredoc => exact hliteral hk rfl
      | openBracket => exact arrayCreation_operand h σ
      | openParen => exact parenthesized_operand h σ
      | backtick => exact shellCommand_operand σ
      | name => exact nameExpression_operand h σ
      | _ => exact missing_operand σ

theorem postfixExpression_operand : Operand (postfixExpression rules) := by
  refine .mark_bind fun b => ((primary_operand h).first b).bind fun _ σ hσ => ?_
  exact .loop_invariant (fun σ hσ => postfixStep_settles h hσ) hσ

theorem unary_operand : Operand (unary rules) := by
  have hsign {kind : PhraseKind} (hkind : kind.slots? = none) :
      Wraps fun start => (do
        advance
        rules .unary
        finish kind start : Parser Unit) :=
    .after .advance fun _ => .after h.unary.settled fun _ => .finish hkind
  refine .nested (.mark_bind fun b => .get_bind (fun b _ => by
    simp only [isAtAny_sight, isAt_sight, isKeyword_sight, isAnyKeyword_sight]) ?_)
  refine .ite (fun _ => hsign rfl _) fun _ => .ite (fun _ => hsign rfl _) fun _ => ?_
  refine .ite (fun _ => hsign rfl _) fun _ => .ite (fun _ => h.assignment.first b) fun _ => ?_
  refine ((postfixExpression_operand h).first b).bind fun _ σ hσ => ?_
  refine accept_settles.bind fun ok σ' hsame => ?_
  cases ok with
  | false => exact .pure (hsame rfl ▸ hσ)
  | true => exact Wraps.after h.unary.settled (fun _ => .finish rfl) σ'

end ArrayShapes.Syntax.Grammar
