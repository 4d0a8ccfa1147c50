import ArrayShapes.Proofs.Syntax.Hereditary.Expression
import ArrayShapes.Syntax.Grammar

/-!
Statements keep what the rules keep. With them, only operations are left to be looked at.
-/

namespace ArrayShapes.Syntax.Grammar

open ArrayShapes.Syntax.Parser ArrayShapes.Syntax.Tree

variable {ok : Tree → Prop} {rules : Rules} (h : RulesRetain ok rules)
include h

/-! ### Parts of statements -/

theorem expressionsUntil_retains {close : TokenKind} :
    Retains ok fun _ => expressionsUntil rules close := by
  refine .loop (.get_bind fun _ => .ite (.pure _) ?_)
  exact (h.rule .expression).bind fun _ => h.steady.accept

theorem condition_retains : Retains ok fun _ => condition rules :=
  h.steady.expect.bind fun _ => (h.rule .expression).bind fun _ => h.steady.expect

theorem loopBody_retains {keyword : String} : Retains ok fun _ => loopBody rules keyword := by
  refine h.steady.accept.bind fun _ => .ite ?_ (h.rule .statement)
  refine (statementList_retains h).bind fun _ => h.steady.expectKeyword.bind fun _ => ?_
  exact h.steady.endStatement

/-! ### Simple statements -/

theorem inlineText_retains : Retains ok fun _ => inlineText :=
  h.phrase rfl (.loopWhile h.steady.advance)

theorem nullStatement_retains : Retains ok fun _ => nullStatement := h.phrase rfl h.steady.advance

theorem gotoStatement_retains : Retains ok fun _ => gotoStatement :=
  h.phrase rfl (h.steady.advance.bind fun _ => h.steady.advance.bind fun _ => h.steady.endStatement)

theorem label_retains : Retains ok fun _ => label :=
  h.phrase rfl (h.steady.advance.bind fun _ => h.steady.advance)

theorem useDeclaration_retains : Retains ok fun _ => useDeclaration :=
  h.phrase rfl (h.steady.advance.bind fun _ => h.steady.importTokens.bind fun _ =>
    h.steady.endStatement)

theorem expressionStatement_retains : Retains ok fun _ => expressionStatement rules := by
  refine .get_bind fun _ => .ite (h.phrase rfl ?_) (.pure _)
  exact (h.rule .expression).bind fun _ => h.steady.endStatement

theorem jump_retains {kind : PhraseKind} (hkind : kind.isOrdinary = true) :
    Retains ok fun _ => jump rules kind := by
  refine h.phrase hkind (h.steady.advance.bind fun _ => .get_bind fun _ => ?_)
  exact .when (h.rule .expression) fun _ => h.steady.endStatement

theorem operands_retains {kind : PhraseKind} (hkind : kind.isOrdinary = true) :
    Retains ok fun _ => operands rules kind := by
  refine h.phrase hkind (h.steady.advance.bind fun _ => ?_)
  exact (expressionsUntil_retains h).bind fun _ => h.steady.endStatement

theorem throwStatement_retains : Retains ok fun _ => throwStatement rules :=
  h.phrase rfl (h.steady.advance.bind fun _ => (h.rule .expression).bind fun _ =>
    h.steady.endStatement)

/-! ### Control flow -/

theorem alternativeClauses_retains {ends : List String} :
    Retains ok fun _ => alternativeClauses rules ends := by
  refine .loop (.get_bind fun _ => .ite ?_ (.ite ?_ (.pure _)))
  · refine .bind (h.phrase rfl (h.steady.advance.bind fun _ => ?_)) fun _ => .pure _
    refine (condition_retains h).bind fun _ => h.steady.expect.bind fun _ => ?_
    exact statementList_retains h
  · refine .bind (h.phrase rfl (h.steady.advance.bind fun _ => ?_)) fun _ => .pure _
    exact h.steady.expect.bind fun _ => statementList_retains h

theorem ifStatement_retains : Retains ok fun _ => ifStatement rules := by
  refine h.phrase rfl (h.steady.advance.bind fun _ => (condition_retains h).bind fun _ => ?_)
  refine h.steady.accept.bind fun _ => .ite ?_ ((h.rule .statement).bind fun _ => ?_)
  · refine (statementList_retains h).bind fun _ => (alternativeClauses_retains h).bind fun _ => ?_
    exact h.steady.expectKeyword.bind fun _ => h.steady.endStatement
  · refine .bind (.loopWhile (h.phrase rfl (h.steady.advance.bind fun _ => ?_))) fun _ => ?_
    · exact (condition_retains h).bind fun _ => h.rule .statement
    · refine .get_bind fun _ => .ite (h.phrase rfl ?_) (.pure _)
      exact h.steady.advance.bind fun _ => h.rule .statement

theorem whileStatement_retains : Retains ok fun _ => whileStatement rules :=
  h.phrase rfl (h.steady.advance.bind fun _ => (condition_retains h).bind fun _ =>
    loopBody_retains h)

theorem doStatement_retains : Retains ok fun _ => doStatement rules := by
  refine h.phrase rfl (h.steady.advance.bind fun _ => (h.rule .statement).bind fun _ => ?_)
  refine h.steady.expectKeyword.bind fun _ => (condition_retains h).bind fun _ => ?_
  exact h.steady.endStatement

theorem forStatement_retains : Retains ok fun _ => forStatement rules := by
  refine h.phrase rfl (h.steady.advance.bind fun _ => h.steady.expect.bind fun _ => ?_)
  refine (expressionsUntil_retains h).bind fun _ => h.steady.expect.bind fun _ => ?_
  refine (expressionsUntil_retains h).bind fun _ => h.steady.expect.bind fun _ => ?_
  refine (expressionsUntil_retains h).bind fun _ => h.steady.expect.bind fun _ => ?_
  exact loopBody_retains h

theorem foreachBinding_retains : Retains ok fun _ => foreachBinding rules := by
  refine h.marked (h.steady.skipOptional.bind fun _ => (h.rule .expression).bind fun _ => ?_)
  refine .get_bind fun _ => .ite ((h.finish rfl).bind fun _ => ?_) (h.finish rfl)
  refine h.steady.advance.bind fun _ => h.phrase rfl ?_
  exact h.steady.skipOptional.bind fun _ => h.rule .expression

theorem foreachStatement_retains : Retains ok fun _ => foreachStatement rules := by
  refine h.phrase rfl (h.steady.advance.bind fun _ => h.steady.expect.bind fun _ => ?_)
  refine .bind (h.phrase rfl (h.rule .expression)) fun _ => h.steady.expectKeyword.bind fun _ => ?_
  refine (foreachBinding_retains h).bind fun _ => h.steady.expect.bind fun _ => ?_
  exact loopBody_retains h

theorem switchCase_retains {isEnd : Builder → Bool} :
    Retains ok fun _ => switchCase rules isEnd := by
  refine h.phrase rfl (.get_bind fun _ => h.steady.advance.bind fun _ => ?_)
  refine .when (h.rule .expression) fun _ => h.steady.accept.bind fun _ => ?_
  refine .ite (h.steady.accept.bind fun _ => ?_) (statementList_retains h)
  exact .when (h.steady.report _) fun _ => statementList_retains h

theorem switchCases_retains {isEnd : Builder → Bool} :
    Retains ok fun _ => switchCases rules isEnd := by
  refine .loopWhile (.get_bind fun _ => .ite (switchCase_retains h) ?_)
  exact (Retains.skipToken h.hereditary).of_simple

theorem switchStatement_retains : Retains ok fun _ => switchStatement rules := by
  refine h.phrase rfl (h.steady.advance.bind fun _ => (condition_retains h).bind fun _ => ?_)
  refine h.steady.accept.bind fun _ => .ite ?_ (h.steady.expect.bind fun _ => ?_)
  · refine (switchCases_retains h).bind fun _ => h.steady.expectKeyword.bind fun _ => ?_
    exact h.steady.endStatement
  · exact (switchCases_retains h).bind fun _ => h.steady.expect

theorem catchClause_retains : Retains ok fun _ => catchClause rules := by
  refine h.phrase rfl (h.steady.advance.bind fun _ => h.steady.expect.bind fun _ => ?_)
  refine (h.rule .typeDeclaration).bind fun _ => h.steady.skipOptional.bind fun _ => ?_
  exact h.steady.expect.bind fun _ => compoundStatement_retains h

theorem tryStatement_retains : Retains ok fun _ => tryStatement rules := by
  refine h.phrase rfl (h.steady.advance.bind fun _ => (compoundStatement_retains h).bind fun _ => ?_)
  refine .bind (.loopWhile (catchClause_retains h)) fun _ => .get_bind fun _ => ?_
  refine .ite (h.phrase rfl ?_) (.pure _)
  exact h.steady.advance.bind fun _ => compoundStatement_retains h

theorem declareStatement_retains : Retains ok fun _ => declareStatement rules := by
  refine h.phrase rfl (h.steady.advance.bind fun _ => h.steady.expect.bind fun _ => ?_)
  refine (expressionsUntil_retains h).bind fun _ => h.steady.expect.bind fun _ => ?_
  refine .get_bind fun _ => .ite (loopBody_retains h) (h.steady.accept.bind fun _ => ?_)
  exact .ite (h.rule .statement) (.pure _)

/-! ### Variables, namespaces and constants -/

theorem staticVariables_retains : Retains ok fun _ => staticVariables rules := by
  refine h.phrase rfl (h.steady.advance.bind fun _ => .bind (.loop (h.marked ?_)) fun _ =>
    h.steady.endStatement)
  refine h.steady.expect?.bind fun _ => .ite (h.steady.accept.bind fun _ => ?_) (.pure _)
  exact .when (h.rule .expression) fun _ => (h.finish rfl).bind fun _ => h.steady.accept

theorem namespaceDefinition_retains : Retains ok fun _ => namespaceDefinition rules := by
  refine h.phrase rfl (h.steady.advance.bind fun _ => .get_bind fun _ => ?_)
  refine .when (qualifiedName_retains h.hereditary).of_simple fun _ => .get_bind fun _ => ?_
  exact .ite (compoundStatement_retains h) h.steady.endStatement

theorem constDeclaration_retains : Retains ok fun _ => constDeclaration rules := by
  refine h.phrase rfl (h.steady.advance.bind fun _ => ?_)
  exact (constElements_retains h rfl).bind fun _ => h.steady.endStatement

/-! ### By first token -/

theorem labelOrExpression_retains : Retains ok fun _ => labelOrExpression rules :=
  .get_bind fun _ => .ite (label_retains h) (expressionStatement_retains h)

theorem keywordStatement_retains : Retains ok fun _ => keywordStatement rules := by
  have hif {c : Prop} [Decidable c] {p : Parser Unit} (hp : Retains ok fun _ => p) :
      Retains ok fun _ => if c then p else labelOrExpression rules :=
    .ite hp (labelOrExpression_retains h)
  refine .get_bind fun b => ?_
  dsimp only
  split
  · exact hif (functionDeclaration_retains h)
  · exact hif (classDeclaration_retains h rfl)
  · exact hif (classDeclaration_retains h rfl)
  · exact hif (classDeclaration_retains h rfl)
  · exact hif (classDeclaration_retains h rfl)
  · exact hif (classDeclaration_retains h rfl)
  · exact hif (classDeclaration_retains h rfl)
  · exact hif (classDeclaration_retains h rfl)
  · exact hif (namespaceDefinition_retains h)
  · exact useDeclaration_retains h
  · exact constDeclaration_retains h
  · exact ifStatement_retains h
  · exact whileStatement_retains h
  · exact doStatement_retains h
  · exact forStatement_retains h
  · exact foreachStatement_retains h
  · exact switchStatement_retains h
  · exact jump_retains h rfl
  · exact jump_retains h rfl
  · exact jump_retains h rfl
  · exact operands_retains h rfl
  · exact operands_retains h rfl
  · exact hif (staticVariables_retains h)
  · exact tryStatement_retains h
  · exact throwStatement_retains h
  · exact hif (declareStatement_retains h)
  · exact hif (gotoStatement_retains h)
  · exact expressionStatement_retains h
  · exact expressionStatement_retains h
  · exact expressionStatement_retains h
  · exact labelOrExpression_retains h

theorem statement_retains : Retains ok fun _ => statement rules := by
  refine Retains.nested h.hereditary (fun _ hx => hx.holds) (.get_bind fun b => ?_)
  split
  · exact .pure _
  · exact inlineText_retains h
  · exact inlineText_retains h
  · exact inlineText_retains h
  · exact operands_retains h rfl
  · exact compoundStatement_retains h
  · exact nullStatement_retains h
  · exact keywordStatement_retains h
  · exact expressionStatement_retains h

omit h

/-! ### The whole grammar -/

/-- One level further up, if the rules that make operations keep the property. -/
theorem RulesRetain.succ {fuel : Nat} (h : RulesRetain ok (run fuel))
    (hbinary : ∀ least, Retains ok fun _ => binary (run fuel) least)
    (hexpression : Retains ok fun _ => expression (run fuel)) : RulesRetain ok (run (fuel + 1)) := by
  have hvariable : Retains (Simple ok) fun _ => Grammar.simpleVariable (run fuel) :=
    simpleVariable_retains h (run_rulesSettled fuel)
  refine ⟨h.hereditary, ?_, unary_retains h, hvariable, assignment_of_looseKeyword h⟩
  intro rule
  cases rule with
  | statement => exact statement_retains h
  | expression => exact hexpression
  | assignment => exact assignment_retains h
  | binary least => exact hbinary least
  | unary => exact (unary_retains h).of_simple
  | simpleVariable => exact hvariable.of_simple
  | typeDeclaration => exact typeDeclaration_retains h

theorem script_retains (h : ∀ fuel, RulesRetain ok (run fuel)) : Retains ok fun _ => script := by
  have hok : Hereditary ok := (h 0).hereditary
  refine Retains.mark_bind hok.token (.get_bind fun b => ?_)
  refine (statementList_retains (h _)).bind fun _ => (Retains.flush hok.token).bind fun _ => ?_
  exact Retains.finish hok rfl

end ArrayShapes.Syntax.Grammar
