import ArrayShapes.Proofs.Syntax.Turns.Declaration
import ArrayShapes.Syntax.Grammar.Expression

/-!
How many turns expressions have, in terms of what the rules leave. Operands on the right of an operator
are counted by its power; assignments, ternaries, `??` and loose keywords are not counted.
-/

namespace ArrayShapes.Syntax.Grammar

open ArrayShapes.Syntax.Parser Builder

variable {rules : Rules} {d k K : Nat} {L₀ : List Tree}

/-! ### Operators -/

theorem operator_power_le {b : Builder} {op : Operator} (hop : operatorAhead? b = some op) :
    op.power ≤ 13 := by
  unfold operatorAhead? at hop
  split at hop
  · cases hop
    simp
  · obtain ⟨kind, -, hkind⟩ := Option.bind_eq_some_iff.1 hop
    cases kind <;> cases hkind <;> simp

/-- The only operator whose right operand may hold it again. -/
theorem operator_rightAssociative {b : Builder} {op : Operator} (hop : operatorAhead? b = some op)
    (hright : op.rightAssociative = true) : op.power = 1 ∧ op.kind = .coalesceExpression := by
  unfold operatorAhead? at hop
  split at hop
  · cases hop
    cases hright
  · obtain ⟨kind, -, hkind⟩ := Option.bind_eq_some_iff.1 hop
    cases kind <;> cases hkind <;> simp_all

theorem shellCommand_emits : Emits d (AtMost 1) shellCommand :=
  .phrase (steady_weighs.advance.bind fun _ => .bind (.loopWhile steady_weighs.advance) fun _ =>
    steady_weighs.expect)

theorem constantName_emits : Emits d (AtMost 2) constantName := by
  refine .marked ((qualifiedName_emits.within (by omega)).bind fun _ => .get_bind fun _ => ?_)
  exact .ite Within.finish (.pure _)

section

variable (h : RulesBounded rules d K)
include h

/-! ### From loose to tight -/

theorem ternary_emits : Emits d (AtMost (K + 15)) (ternary rules) := by
  have htokens : Steady (Grown d (AtMost (K + 15)) []) := steady_grown atMost_token
  refine .mark_bind atMost_token (((h.binary 0) []).bind fun _ => .loopWhile ?_)
  refine htokens.advance.bind fun _ => .get_bind fun _ => .when (h.assignment []) fun _ => ?_
  refine htokens.expect.bind fun _ => (h.assignment []).bind fun _ => ?_
  exact finish_free_grown fun _ _ => rfl

theorem looseKeyword_meets :
    Meets (fun L b => Grown d (AtMost (K + 15)) L₀ L b ∧ b.isAnyKeyword looseKeywords = true)
      (fun _ => looseKeyword rules) fun _ => Grown d (AtMost (K + 15)) L₀ := by
  refine Grown.mark_bind atMost_token (fun b hb => ?_) (Meets.bind (Q := fun _ => Led d (K + 15))
    (.get_bind fun b₀ => ?_) fun _ => led_finish)
  · rwa [isAnyKeyword, flush_word?]
  · refine .bind ((led_advance (k := K + 15)).imp (fun _ _ hb => hb.1) fun _ _ _ => id) fun _ => ?_
    refine Maintains.when steady_led.skipOptionalKeyword fun _ => .get_bind fun _ => ?_
    exact .ite h.assignment.led (.pure _)

theorem assignment_emits : Emits d (AtMost (K + 15)) (assignment rules) := by
  have htokens : Steady (Grown d (AtMost (K + 15)) []) := steady_grown atMost_token
  refine .mark_bind atMost_token (Meets.get_bind fun b₀ => .ite (fun hloose => ?_) fun _ => ?_)
  · refine (looseKeyword_meets h).imp ?_ fun _ _ _ => id
    rintro L b ⟨hb, rfl⟩
    exact ⟨hb, hloose⟩
  · refine Meets.imp (P := Grown d (AtMost (K + 15)) []) ?_ (fun _ _ hb => hb.1) fun _ _ _ => id
    refine (ternary_emits h []).bind fun _ => Maintains.get_bind fun b => ?_
    cases b.kind? with
    | none => exact .pure _
    | some kind =>
        cases kind with
        | equals =>
            refine htokens.advance.bind fun _ => htokens.skipOptional.bind fun _ => ?_
            exact (h.assignment []).bind fun _ => finish_free_grown fun _ _ => rfl
        | compoundAssignment =>
            refine htokens.advance.bind fun _ => (h.assignment []).bind fun _ => ?_
            exact finish_free_grown fun _ _ => rfl
        | _ => exact .pure _

theorem binary_emits {least : Nat} :
    Emits d (AtMost (K + (14 - least) + 1)) (binary rules least) := by
  refine .marked ((h.unary.within (by omega)).bind fun _ => .loop (.get_bind fun b => ?_))
  cases hop : operatorAhead? b with
  | none => exact .pure _
  | some op =>
      refine Meets.ite (fun _ => .pure fun _ _ => id) fun hleast => ?_
      have hpower : op.power ≤ 13 := operator_power_le hop
      cases hright : op.rightAssociative with
      | false =>
          refine steady_weighs.advance.bind fun _ => .bind ?_ fun _ => Within.finish.bind fun _ => .pure _
          exact (h.binary _).within (by simp; omega)
      | true =>
          obtain ⟨hone, hkind⟩ := operator_rightAssociative hop hright
          have hoperand : Emits d (AtMost (K + (14 - least) + 1)) (rules (.binary op.power)) :=
            (h.binary op.power).weaken (by omega)
          refine Meets.imp (P := Grown d (AtMost (K + (14 - least) + 1)) []) ?_
            (fun _ _ hb => hb.grown) fun _ _ _ => id
          refine Meets.bind (Emits.advance []) fun _ => Meets.bind (hoperand []) fun _ => ?_
          refine Meets.bind (finish_free ?_) fun _ => .pure fun _ _ => id
          rw [hkind]
          exact fun _ _ => rfl

/-! ### Postfix phrases -/

theorem simpleVariable_emits : Emits d (Fits .simpleVariable (K + 1)) (simpleVariable rules) := by
  have htokens : Steady (Grown d (Fits .simpleVariable (K + 1)) []) := steady_grown fits_token
  have hexpression : Emits d (Fits .simpleVariable (K + 1)) (rules .expression) :=
    h.expression.mono fun _ hx => hx.fits (by omega)
  refine .mark_bind fits_token (.bind ?_ fun _ => finish_fits (fun _ _ _ _ => rfl) fun _ _ => rfl)
  refine htokens.accept.bind fun _ => .ite (htokens.accept.bind fun _ => .ite ?_ ?_) htokens.expect
  · exact (hexpression []).bind fun _ => htokens.expect
  · exact .get_bind fun _ => .ite (h.simpleVariable []) (htokens.report _)

theorem bracedExpression_within : Within d (K + k + 1) fun _ => bracedExpression rules :=
  steady_weighs.advance.bind fun _ => (h.expression.within (by omega)).bind fun _ =>
    steady_weighs.expect

theorem memberName_emits : Emits d (AtMost (K + 2)) (memberName rules) := by
  refine .phrase (.get_bind fun _ => .ite steady_weighs.advance ?_)
  refine .ite (h.variable_within (by omega)) ?_
  exact .ite (bracedExpression_within h) (steady_weighs.report _)

theorem argument_emits : Emits d (AtMost (K + 1)) (argument rules) := by
  have hexpression : Within d (K + 1) fun _ => rules .expression := h.expression.within (by omega)
  refine .marked (.get_bind fun _ => .ite ?_ (.ite ?_ hexpression))
  · exact steady_weighs.advance.bind fun _ => hexpression.bind fun _ => Within.finish
  · refine steady_weighs.advance.bind fun _ => steady_weighs.advance.bind fun _ => ?_
    exact hexpression.bind fun _ => Within.finish

theorem arguments_emits : Emits d (AtMost (K + 2)) (arguments rules) := by
  refine .phrase (.loop (.get_bind fun _ => .ite (.pure _) (.ite ?_ ?_)))
  · exact steady_weighs.advance.bind fun _ => .pure _
  · refine ((argument_emits h).within (by omega)).progress.bind fun _ => ?_
    exact .ite steady_weighs.accept (.pure _)

theorem argumentList_within : Within d (K + k + 3) fun _ => argumentList rules :=
  steady_weighs.expect.bind fun _ => ((arguments_emits h).within (by omega)).bind fun _ =>
    steady_weighs.expect

theorem subscript_within : Within d (K + k + 1) fun start => subscript rules start := by
  refine steady_weighs.advance.bind fun _ => .get_bind fun _ => ?_
  refine .when (h.expression.within (by omega)) fun _ => steady_weighs.expect.bind fun _ => ?_
  exact Within.finish

theorem memberAccess_within : Within d (K + k + 3) fun start => memberAccess rules start := by
  refine steady_weighs.advance.bind fun _ => ((memberName_emits h).within (by omega)).bind fun _ => ?_
  refine .get_bind fun _ => .ite ?_ Within.finish
  exact (argumentList_within h).bind fun _ => Within.finish

theorem scopedAccess_within : Within d (K + k + 3) fun start => scopedAccess rules start := by
  refine steady_weighs.advance.bind fun _ => .get_bind fun _ =>
    .bind (Emits.within (.phrase (k := K + 2) ?_) (by omega)) fun _ => .get_bind fun _ => .ite ?_ ?_
  · refine .ite (h.variable_within (by omega)) (.get_bind fun _ => ?_)
    exact .ite (bracedExpression_within h) steady_weighs.expect
  · exact (argumentList_within h).bind fun _ => Within.finish
  · exact .ite Within.finish Within.finish

theorem postfixStep_within : Within d (K + k + 3) fun start => postfixStep rules start := by
  refine .get_bind fun b => ?_
  cases b.kind? with
  | none => exact .pure _
  | some kind =>
      cases kind with
      | openBracket => exact (subscript_within h (k := k + 2)).bind fun _ => .pure _
      | arrow | nullsafeArrow => exact (memberAccess_within h).bind fun _ => .pure _
      | colonColon => exact (scopedAccess_within h).bind fun _ => .pure _
      | openParen =>
          exact (argumentList_within h).bind fun _ => Within.finish.bind fun _ => .pure _
      | plusPlus | minusMinus =>
          exact steady_weighs.advance.bind fun _ => Within.finish.bind fun _ => .pure _
      | _ => exact .pure _

/-! ### Primary expressions -/

theorem arrayElement_emits : Emits d (AtMost (K + 3)) (arrayElement rules) := by
  have hexpression : Within d (K + 2) fun _ => rules .expression := h.expression.within (by omega)
  have hvalue : Emits d (AtMost (K + 1)) (phrase .arrayValue do
      skipOptional .ampersand
      rules .expression) :=
    .phrase (steady_weighs.skipOptional.bind fun _ => h.expression.within (by omega))
  refine .phrase (Emits.within (.marked (k := K + 2) (.get_bind fun _ => .ite ?_ ?_)) (by omega))
  · exact steady_weighs.advance.bind fun _ => hexpression.bind fun _ => Within.finish
  · refine hexpression.bind fun _ => .get_bind fun _ => .ite (Within.finish.bind fun _ => ?_) Within.finish
    exact steady_weighs.advance.bind fun _ => hvalue.within (by omega)

theorem arrayElements_emits {close : TokenKind} :
    Emits d (AtMost (K + 4)) (arrayElements rules close) := by
  refine .phrase (.loop (.get_bind fun _ => .ite (.pure _) (steady_weighs.accept.bind fun _ => ?_)))
  refine .ite (.pure _) (((arrayElement_emits h).within (by omega)).progress.bind fun _ => ?_)
  exact .ite steady_weighs.accept (.pure _)

theorem arrayCreation_emits : Emits d (AtMost (K + 5)) (arrayCreation rules) := by
  have helements (close : TokenKind) (text : String) : Within d (K + 5) fun _ => (do
      arrayElements rules close
      expect close text : Parser Unit) :=
    ((arrayElements_emits h).within (by omega)).bind fun _ => steady_weighs.expect
  refine .phrase (steady_weighs.accept.bind fun _ => .ite (helements _ _) ?_)
  exact steady_weighs.advance.bind fun _ => steady_weighs.expect.bind fun _ => helements _ _

theorem useClause_within : Within d (k + 4) fun _ => useClause rules := by
  refine .get_bind fun _ => .when (Emits.within (.phrase (k := 2) ?_) (by omega)) fun _ =>
    (returnType_emits h).within (by omega)
  refine steady_weighs.advance.bind fun _ => steady_weighs.expect.bind fun _ =>
    .bind (.loop (.get_bind fun _ => .ite (.pure _) ?_)) fun _ => steady_weighs.expect
  refine Emits.within (.marked (k := 1) (steady_weighs.skipOptional.bind fun _ => ?_)) (by omega)
  refine steady_weighs.expect?.bind fun _ => .ite (Within.finish.bind fun _ => ?_) (.pure _)
  exact steady_weighs.accept

theorem anonymousFunction_emits : Emits d (AtMost (K + 5)) (anonymousFunction rules) := by
  refine .phrase (steady_weighs.skipOptionalKeyword.bind fun _ =>
    .bind (Emits.within (.phrase (k := K + 4) ?_) (by omega)) fun _ =>
      (functionBody_emits h).within (by omega))
  refine steady_weighs.advance.bind fun _ => steady_weighs.skipOptional.bind fun _ => ?_
  exact (parameterList_within h).bind fun _ => useClause_within h

theorem arrowFunction_emits : Emits d (AtMost (K + 17)) (arrowFunction rules) := by
  have hK : 3 ≤ K := h.three_le
  refine .phrase (steady_weighs.skipOptionalKeyword.bind fun _ =>
    .bind (Emits.within (.phrase (k := K + 4) ?_) (by omega)) fun _ => steady_weighs.expect.bind
      fun _ => Emits.within (.phrase (k := K + 16) (h.assignment.within (by omega))) (by omega))
  refine steady_weighs.advance.bind fun _ => steady_weighs.skipOptional.bind fun _ => ?_
  exact (parameterList_within h).bind fun _ => (returnType_emits h).within (by omega)

theorem anonymousClass_emits : Emits d (AtMost (K + 7)) (anonymousClass rules) := by
  refine .phrase (steady_weighs.advance.bind fun _ => .get_bind fun _ => ?_)
  refine .when (argumentList_within h) fun _ => (classHeritage_emits.within (by omega)).bind fun _ => ?_
  exact (classBody_emits h).within (by omega)

theorem classDesignator_emits : Emits d (AtMost (K + 2)) (classDesignator rules) := by
  refine .phrase (.get_bind fun _ => .ite (qualifiedName_emits.within (by omega)) ?_)
  refine .ite (h.variable_within (by omega)) (.ite ?_ (steady_weighs.report _))
  refine steady_weighs.advance.bind fun _ => (h.expression.within (by omega)).bind fun _ => ?_
  exact steady_weighs.expect

theorem objectCreation_emits : Emits d (AtMost (K + 8)) (objectCreation rules) := by
  refine .phrase (steady_weighs.advance.bind fun _ => .get_bind fun _ => ?_)
  refine .ite ((anonymousClass_emits h).within (by omega)) ?_
  refine ((classDesignator_emits h).within (by omega)).bind fun _ => .get_bind fun _ => ?_
  exact .ite (argumentList_within h) (.pure _)

theorem matchArm_emits : Emits d (AtMost (K + 1)) (matchArm rules) := by
  have hexpression : Within d (K + 1) fun _ => rules .expression := h.expression.within (by omega)
  have hconditions : Within d (K + 1) fun _ => matchConditions rules := by
    refine .loop (hexpression.bind fun _ => steady_weighs.accept.bind fun _ => .ite ?_ (.pure _))
    exact .get_bind fun _ => .pure _
  refine .phrase (steady_weighs.acceptKeyword.bind fun _ => .when hconditions fun _ => ?_)
  exact steady_weighs.expect.bind fun _ => hexpression

theorem matchExpression_emits : Emits d (AtMost (K + 2)) (matchExpression rules) := by
  refine .phrase (steady_weighs.advance.bind fun _ => steady_weighs.expect.bind fun _ => ?_)
  refine (h.expression.within (by omega)).bind fun _ => steady_weighs.expect.bind fun _ => ?_
  refine steady_weighs.expect?.bind fun _ =>
    .ite (.bind (.loop (.get_bind fun _ => .ite (.pure _) ?_)) fun _ => steady_weighs.expect) (.pure _)
  refine ((matchArm_emits h).within (by omega)).progress.bind fun _ => ?_
  exact .ite steady_weighs.accept (.pure _)

theorem parenthesized_emits : Emits d (AtMost (K + 1)) (parenthesized rules) :=
  .phrase (steady_weighs.advance.bind fun _ => (h.expression.within (by omega)).bind fun _ =>
    steady_weighs.expect)

theorem nameExpression_emits : Emits d (AtMost (K + 17)) (nameExpression rules) := by
  refine .get_bind fun _ => .ite ((arrayCreation_emits h).weaken (by omega)) ?_
  refine .ite ((anonymousFunction_emits h).weaken (by omega)) (.ite (arrowFunction_emits h) ?_)
  refine .ite ((objectCreation_emits h).weaken (by omega)) ?_
  exact .ite ((matchExpression_emits h).weaken (by omega)) (constantName_emits.weaken (by omega))

theorem primary_emits : Emits d (AtMost (K + 17)) (primary rules) := by
  have hvariable : Emits d (AtMost (K + 17)) (rules .simpleVariable) :=
    h.simpleVariable.mono fun _ hx => hx.atMost.mono (by omega)
  have hmissing : Emits d (AtMost (K + 17)) (do
      report (.missing .expression)
      phrase .error (pure ())) :=
    (Emits.report _).bind fun _ => .phrase (.pure _)
  refine .get_bind fun b => ?_
  cases b.kind? with
  | none => exact hmissing
  | some kind =>
      cases kind with
      | variableName | dollar => exact hvariable
      | integerLiteral | floatingLiteral | stringLiteral | heredoc => exact .advance
      | openBracket => exact (arrayCreation_emits h).weaken (by omega)
      | openParen => exact (parenthesized_emits h).weaken (by omega)
      | backtick => exact shellCommand_emits.weaken (by omega)
      | name => exact nameExpression_emits h
      | _ => exact hmissing

theorem postfixExpression_emits : Emits d (AtMost (K + 18)) (postfixExpression rules) :=
  .marked (((primary_emits h).within (by omega)).bind fun _ => .loop (postfixStep_within h))

end

/-! ### One level deeper -/

/-- How many turns there may be in what is left at depth `d`. -/
def ceiling (d : Nat) : Nat := 19 * (maxDepth - d) + 3

theorem ceiling_of_lt (hd : d < maxDepth) : ceiling d = ceiling (d + 1) + 19 := by
  simp only [ceiling]
  omega

variable (h : ∀ d, RulesBounded rules d (ceiling d))
include h

theorem expression_emits : Emits d (AtMost (ceiling d)) (expression rules) := by
  refine .nested (by simp only [ceiling]; omega) fun hd => ?_
  have hassignment : Within (d + 1) (ceiling (d + 1) + 16) fun _ => rules .assignment :=
    (h (d + 1)).assignment.within (by omega)
  refine Emits.weaken (.marked (hassignment.bind fun _ => .loopWhile ?_)) (ceiling_of_lt hd ▸ by omega)
  exact steady_weighs.advance.bind fun _ => hassignment.bind fun _ => Within.finish

theorem unary_emits : Emits d (AtMost (ceiling d)) (unary rules) := by
  refine .nested (by simp only [ceiling]; omega) fun hd => ?_
  rw [ceiling_of_lt hd]
  have hunary : Within (d + 1) (ceiling (d + 1) + 19) fun _ => rules .unary :=
    (h (d + 1)).unary.within (by omega)
  have hsign {kind : PhraseKind} : Within (d + 1) (ceiling (d + 1) + 19) fun start => (do
      advance
      rules .unary
      finish kind start : Parser Unit) :=
    steady_weighs.advance.bind fun _ => hunary.bind fun _ => Within.finish
  refine .marked (.get_bind fun _ => .ite hsign (.ite hsign (.ite hsign (.ite ?_ ?_))))
  · exact (h (d + 1)).assignment.within (by omega)
  · refine ((postfixExpression_emits (h (d + 1))).within (by omega)).bind fun _ => ?_
    refine steady_weighs.accept.bind fun _ => .ite (hunary.bind fun _ => ?_) (.pure _)
    exact Within.finish

end ArrayShapes.Syntax.Grammar
