import ArrayShapes.Proofs.Syntax.Turns.Expression
import ArrayShapes.Syntax.Grammar

/-!
How many turns statements have, and with them all that the grammar leaves at a given depth.
-/

namespace ArrayShapes.Syntax.Grammar

open ArrayShapes.Syntax.Parser

variable {rules : Rules} {d k K : Nat}

/-! ### Without rules -/

theorem inlineText_emits : Emits d (AtMost (k + 1)) inlineText :=
  .phrase (.loopWhile steady_weighs.advance)

theorem nullStatement_emits : Emits d (AtMost (k + 1)) nullStatement := .phrase steady_weighs.advance

theorem gotoStatement_emits : Emits d (AtMost (k + 1)) gotoStatement :=
  .phrase (steady_weighs.advance.bind fun _ => steady_weighs.advance.bind fun _ =>
    steady_weighs.endStatement)

theorem label_emits : Emits d (AtMost (k + 1)) label :=
  .phrase (steady_weighs.advance.bind fun _ => steady_weighs.advance)

theorem useDeclaration_emits : Emits d (AtMost (k + 1)) useDeclaration :=
  .phrase (steady_weighs.advance.bind fun _ => steady_weighs.importTokens.bind fun _ =>
    steady_weighs.endStatement)

section

variable (h : RulesBounded rules d K)
include h

/-! ### Parts of statements -/

theorem expressionsUntil_within {close : TokenKind} :
    Within d (K + k + 1) fun _ => expressionsUntil rules close := by
  refine .loop (.get_bind fun _ => .ite (.pure _) ?_)
  exact (h.expression.within (by omega)).bind fun _ => steady_weighs.accept

theorem condition_within : Within d (K + k + 1) fun _ => condition rules :=
  steady_weighs.expect.bind fun _ => (h.expression.within (by omega)).bind fun _ =>
    steady_weighs.expect

theorem loopBody_within {keyword : String} :
    Within d (K + k + 2) fun _ => loopBody rules keyword := by
  refine steady_weighs.accept.bind fun _ => .ite ?_ (h.statement.within (by omega))
  refine ((statementList_emits h).within (by omega)).bind fun _ => ?_
  exact steady_weighs.expectKeyword.bind fun _ => steady_weighs.endStatement

/-! ### Simple statements -/

theorem expressionStatement_emits : Emits d (AtMost (K + 7)) (expressionStatement rules) := by
  refine .get_bind fun _ => .ite (.phrase ?_) (.pure _)
  exact (h.expression.within (by omega)).bind fun _ => steady_weighs.endStatement

theorem jump_emits {kind : PhraseKind} : Emits d (AtMost (K + 7)) (jump rules kind) := by
  refine .phrase (steady_weighs.advance.bind fun _ => .get_bind fun _ => ?_)
  exact .when (h.expression.within (by omega)) fun _ => steady_weighs.endStatement

theorem operands_emits {kind : PhraseKind} : Emits d (AtMost (K + 7)) (operands rules kind) := by
  refine .phrase (steady_weighs.advance.bind fun _ => ?_)
  exact (expressionsUntil_within h).bind fun _ => steady_weighs.endStatement

theorem throwStatement_emits : Emits d (AtMost (K + 7)) (throwStatement rules) :=
  .phrase (steady_weighs.advance.bind fun _ => (h.expression.within (by omega)).bind fun _ =>
    steady_weighs.endStatement)

/-! ### Control flow -/

theorem alternativeClauses_within {ends : List String} :
    Within d (K + k + 3) fun _ => alternativeClauses rules ends := by
  have hlist {isEnd : Builder → Bool} : Within d (K + 2) fun _ => statementList rules isEnd :=
    (statementList_emits h).within (by omega)
  refine .loop (.get_bind fun _ => .ite ?_ (.ite ?_ (.pure _)))
  · refine .bind (Emits.within (.phrase (k := K + 2) ?_) (by omega)) fun _ => .pure _
    refine steady_weighs.advance.bind fun _ => (condition_within h).bind fun _ => ?_
    exact steady_weighs.expect.bind fun _ => hlist
  · refine .bind (Emits.within (.phrase (k := K + 2) ?_) (by omega)) fun _ => .pure _
    exact steady_weighs.advance.bind fun _ => steady_weighs.expect.bind fun _ => hlist

theorem ifStatement_emits : Emits d (AtMost (K + 7)) (ifStatement rules) := by
  have hstatement : Within d (K + 2) fun _ => rules .statement := h.statement.within (by omega)
  refine .phrase (steady_weighs.advance.bind fun _ => (condition_within h).bind fun _ => ?_)
  refine steady_weighs.accept.bind fun _ => .ite ?_ (.bind (h.statement.within (by omega)) fun _ => ?_)
  · refine ((statementList_emits h).within (by omega)).bind fun _ => ?_
    refine (alternativeClauses_within h).bind fun _ => ?_
    exact steady_weighs.expectKeyword.bind fun _ => steady_weighs.endStatement
  · refine .bind (.loopWhile (Emits.within (.phrase (k := K + 2) ?_) (by omega))) fun _ =>
      .get_bind fun _ => .ite (Emits.within (.phrase (k := K + 2) ?_) (by omega)) (.pure _)
    · exact steady_weighs.advance.bind fun _ => (condition_within h).bind fun _ => hstatement
    · exact steady_weighs.advance.bind fun _ => hstatement

theorem whileStatement_emits : Emits d (AtMost (K + 7)) (whileStatement rules) :=
  .phrase (steady_weighs.advance.bind fun _ => (condition_within h).bind fun _ => loopBody_within h)

theorem doStatement_emits : Emits d (AtMost (K + 7)) (doStatement rules) := by
  refine .phrase (steady_weighs.advance.bind fun _ => (h.statement.within (by omega)).bind fun _ => ?_)
  refine steady_weighs.expectKeyword.bind fun _ => (condition_within h).bind fun _ => ?_
  exact steady_weighs.endStatement

theorem forStatement_emits : Emits d (AtMost (K + 7)) (forStatement rules) := by
  refine .phrase (steady_weighs.advance.bind fun _ => steady_weighs.expect.bind fun _ => ?_)
  refine (expressionsUntil_within h).bind fun _ => steady_weighs.expect.bind fun _ => ?_
  refine (expressionsUntil_within h).bind fun _ => steady_weighs.expect.bind fun _ => ?_
  refine (expressionsUntil_within h).bind fun _ => steady_weighs.expect.bind fun _ => ?_
  exact loopBody_within h

theorem foreachBinding_emits : Emits d (AtMost (K + 2)) (foreachBinding rules) := by
  have hvalue : Emits d (AtMost (K + 1)) (phrase .foreachValue do
      skipOptional .ampersand
      rules .expression) :=
    .phrase (steady_weighs.skipOptional.bind fun _ => h.expression.within (by omega))
  refine .marked (steady_weighs.skipOptional.bind fun _ => .bind (h.expression.within (by omega)) ?_)
  refine fun _ => .get_bind fun _ => .ite (Within.finish.bind fun _ => ?_) Within.finish
  exact steady_weighs.advance.bind fun _ => hvalue.within (by omega)

theorem foreachStatement_emits : Emits d (AtMost (K + 7)) (foreachStatement rules) := by
  have hcollection : Emits d (AtMost (K + 1)) (phrase .foreachCollection (rules .expression)) :=
    .phrase (h.expression.within (by omega))
  refine .phrase (steady_weighs.advance.bind fun _ => steady_weighs.expect.bind fun _ => ?_)
  refine (hcollection.within (by omega)).bind fun _ => steady_weighs.expectKeyword.bind fun _ => ?_
  refine ((foreachBinding_emits h).within (by omega)).bind fun _ => steady_weighs.expect.bind fun _ => ?_
  exact loopBody_within h

theorem switchCase_emits {isEnd : Builder → Bool} :
    Emits d (AtMost (K + 2)) (switchCase rules isEnd) := by
  have hlist {isEnd : Builder → Bool} : Within d (K + 2) fun _ => statementList rules isEnd :=
    (statementList_emits h).within (by omega)
  refine .phrase (.get_bind fun _ => steady_weighs.advance.bind fun _ => ?_)
  refine .when (h.expression.within (by omega)) fun _ => steady_weighs.accept.bind fun _ => ?_
  refine .ite (steady_weighs.accept.bind fun _ => ?_) hlist
  exact .when (steady_weighs.report _) fun _ => hlist

theorem switchCases_within {isEnd : Builder → Bool} :
    Within d (K + k + 3) fun _ => switchCases rules isEnd := by
  refine .loopWhile (.get_bind fun _ => .ite ((switchCase_emits h).within (by omega)) ?_)
  exact Emits.skipToken.within (by omega)

theorem switchStatement_emits : Emits d (AtMost (K + 7)) (switchStatement rules) := by
  refine .phrase (steady_weighs.advance.bind fun _ => (condition_within h).bind fun _ => ?_)
  refine steady_weighs.accept.bind fun _ => .ite ?_ (steady_weighs.expect.bind fun _ => ?_)
  · refine (switchCases_within h).bind fun _ => ?_
    exact steady_weighs.expectKeyword.bind fun _ => steady_weighs.endStatement
  · exact (switchCases_within h).bind fun _ => steady_weighs.expect

theorem catchClause_emits : Emits d (AtMost (K + 3)) (catchClause rules) := by
  have hK : 3 ≤ K := h.three_le
  refine .phrase (steady_weighs.advance.bind fun _ => steady_weighs.expect.bind fun _ => ?_)
  refine (h.type_within (by omega)).bind fun _ => steady_weighs.skipOptional.bind fun _ => ?_
  exact steady_weighs.expect.bind fun _ => (compoundStatement_emits h).within (by omega)

theorem tryStatement_emits : Emits d (AtMost (K + 7)) (tryStatement rules) := by
  have hfinally : Emits d (AtMost (K + 3)) (phrase .finallyClause do
      advance
      compoundStatement rules) :=
    .phrase (steady_weighs.advance.bind fun _ => (compoundStatement_emits h).within (by omega))
  refine .phrase (steady_weighs.advance.bind fun _ => ?_)
  refine ((compoundStatement_emits h).within (by omega)).bind fun _ => ?_
  refine .bind (.loopWhile ((catchClause_emits h).within (by omega))) fun _ => .get_bind fun _ => ?_
  exact .ite (hfinally.within (by omega)) (.pure _)

theorem declareStatement_emits : Emits d (AtMost (K + 7)) (declareStatement rules) := by
  refine .phrase (steady_weighs.advance.bind fun _ => steady_weighs.expect.bind fun _ => ?_)
  refine (expressionsUntil_within h).bind fun _ => steady_weighs.expect.bind fun _ => ?_
  refine .get_bind fun _ => .ite (loopBody_within h) (steady_weighs.accept.bind fun _ => ?_)
  exact .ite (h.statement.within (by omega)) (.pure _)

/-! ### Variables, namespaces and constants -/

theorem staticVariables_emits : Emits d (AtMost (K + 7)) (staticVariables rules) := by
  refine .phrase (steady_weighs.advance.bind fun _ =>
    .bind (.loop (Emits.within (.marked (k := K + 1) ?_) (by omega))) fun _ =>
      steady_weighs.endStatement)
  refine steady_weighs.expect?.bind fun _ => .ite (steady_weighs.accept.bind fun _ => ?_) (.pure _)
  refine .when (h.expression.within (by omega)) fun _ => Within.finish.bind fun _ => ?_
  exact steady_weighs.accept

theorem namespaceDefinition_emits : Emits d (AtMost (K + 7)) (namespaceDefinition rules) := by
  refine .phrase (steady_weighs.advance.bind fun _ => .get_bind fun _ => ?_)
  refine .when (qualifiedName_emits.within (by omega)) fun _ => .get_bind fun _ => ?_
  exact .ite ((compoundStatement_emits h).within (by omega)) steady_weighs.endStatement

theorem constDeclaration_emits : Emits d (AtMost (K + 7)) (constDeclaration rules) := by
  refine .phrase (steady_weighs.advance.bind fun _ => ?_)
  exact (constElements_within h).bind fun _ => steady_weighs.endStatement

/-! ### By first token -/

theorem labelOrExpression_emits : Emits d (AtMost (K + 7)) (labelOrExpression rules) :=
  .get_bind fun _ => .ite label_emits (expressionStatement_emits h)

theorem keywordStatement_emits : Emits d (AtMost (K + 7)) (keywordStatement rules) := by
  have hif {c : Prop} [Decidable c] {p : Parser Unit} (hp : Emits d (AtMost (K + 7)) p) :
      Emits d (AtMost (K + 7)) (if c then p else labelOrExpression rules) :=
    .ite hp (labelOrExpression_emits h)
  refine .get_bind fun b => ?_
  dsimp only
  split
  · exact hif ((functionDeclaration_emits h).weaken (by omega))
  · exact hif (classDeclaration_emits h)
  · exact hif (classDeclaration_emits h)
  · exact hif (classDeclaration_emits h)
  · exact hif (classDeclaration_emits h)
  · exact hif (classDeclaration_emits h)
  · exact hif (classDeclaration_emits h)
  · exact hif (classDeclaration_emits h)
  · exact hif (namespaceDefinition_emits h)
  · exact useDeclaration_emits
  · exact constDeclaration_emits h
  · exact ifStatement_emits h
  · exact whileStatement_emits h
  · exact doStatement_emits h
  · exact forStatement_emits h
  · exact foreachStatement_emits h
  · exact switchStatement_emits h
  · exact jump_emits h
  · exact jump_emits h
  · exact jump_emits h
  · exact operands_emits h
  · exact operands_emits h
  · exact hif (staticVariables_emits h)
  · exact tryStatement_emits h
  · exact throwStatement_emits h
  · exact hif (declareStatement_emits h)
  · exact hif gotoStatement_emits
  · exact expressionStatement_emits h
  · exact expressionStatement_emits h
  · exact expressionStatement_emits h
  · exact labelOrExpression_emits h

end

/-! ### All rules -/

theorem statement_emits (h : ∀ d, RulesBounded rules d (ceiling d)) :
    Emits d (AtMost (ceiling d)) (statement rules) := by
  refine .nested (by simp only [ceiling]; omega) fun hd => ?_
  rw [ceiling_of_lt hd]
  refine .get_bind fun b => ?_
  split
  · exact .pure _
  · exact inlineText_emits
  · exact inlineText_emits
  · exact inlineText_emits
  · exact (operands_emits (h (d + 1))).weaken (by omega)
  · exact (compoundStatement_emits (h (d + 1))).weaken (by omega)
  · exact nullStatement_emits
  · exact (keywordStatement_emits (h (d + 1))).weaken (by omega)
  · exact (expressionStatement_emits (h (d + 1))).weaken (by omega)

/-- Induction on the fuel, at all depths at once: what a rule leaves at one depth follows from what
the rules leave there and one level deeper. -/
theorem rulesBounded_run (fuel d : Nat) : RulesBounded (run fuel) d (ceiling d) := by
  induction fuel generalizing d with
  | zero =>
      have hfailure {ok : Tree → Prop} (rule : Rule) : Emits d ok (run 0 rule) := fun _ => Meets.failure
      exact ⟨by simp [ceiling], hfailure _, hfailure _, hfailure _, hfailure _, fun _ => hfailure _,
        hfailure _, hfailure _⟩
  | succ fuel ih =>
      exact ⟨by simp [ceiling], statement_emits ih, expression_emits ih, unary_emits ih,
        assignment_emits (ih d), fun _ => binary_emits (ih d), simpleVariable_emits (ih d),
        typeDeclaration_emits (ih d)⟩

theorem script_emits : Emits 0 (AtMost (ceiling 0 + 2)) script := by
  refine .marked (.get_bind fun b => ?_)
  refine ((statementList_emits (rulesBounded_run _ 0)).within (by omega)).bind fun _ => ?_
  exact .bind ((Emits.flush (k := 0)).within (by omega)) fun _ => Within.finish

end ArrayShapes.Syntax.Grammar
