import ArrayShapes.Proofs.Syntax.Attachment.Expression

/-!
A statement is added as a whole: it is one phrase behind blank text, and closed, or nothing at all.
-/

namespace ArrayShapes.Syntax.Grammar

open ArrayShapes.Syntax.Parser Builder
open ArrayShapes.Syntax.Tree hiding id

variable {rules : Rules} {c : Bool} {C : Builder → Prop} {kind : PhraseKind}

/-- Where a statement starts with a keyword there is something to take. -/
abbrev Starting (b : Builder) : Prop := b.atEnd = false

/-! ### Without rules -/

/-- There is something to take in front of the first round, and every round closes what it leaves. -/
theorem inlineText_appends :
    Appends (fun b => b.isAtAny [.inlineHtml, .openTag, .closeTag] = true) inlineText := by
  refine .phrase rfl (fun b hb => by simpa using hb) ?_
  have hround : Meets (fun L b => (Sound true L b ∨
        Sound false L b ∧ b.isAtAny [.inlineHtml, .openTag, .closeTag] = true) ∧
        b.isAtAny [.inlineHtml, .openTag, .closeTag] = true) (fun _ => advance) fun _ L b =>
      Sound true L b ∨ Sound false L b ∧ b.isAtAny [.inlineHtml, .openTag, .closeTag] = true := by
    refine (advance_begins (c := false)).imp (fun L b hb => ?_) fun _ _ _ => .inl
    refine ⟨?_, atEnd_of_isAtAny hb.2⟩
    rcases hb.1 with hclosed | hopen
    · exact hclosed.loosen
    · exact hopen.1
  refine (Meets.loopWhile hround).imp (fun _ _ => .inr) fun _ L b hb => ?_
  rcases hb.1 with hclosed | hopen
  · exact hclosed
  · simp [hopen.2] at hb

theorem nullStatement_appends : Appends Starting nullStatement := .phrase_of_begins rfl advance_begins

theorem gotoStatement_appends : Appends Starting gotoStatement :=
  .phrase_of_begins rfl (advance_begins.bind fun _ => advance_carries.bind fun _ =>
    endStatement_carries)

theorem label_appends : Appends Starting label :=
  .phrase_of_begins rfl (advance_begins.bind fun _ => advance_carries)

theorem useDeclaration_appends : Appends Starting useDeclaration :=
  .phrase_of_begins rfl (advance_begins.bind fun _ => .bind steady_sound.importTokens fun _ =>
    endStatement_carries)

variable (h : RulesAttach rules)
include h

/-! ### Parts of statements -/

theorem expressionsUntil_carries {close : TokenKind} :
    Carries c (fun _ => expressionsUntil rules close) c := by
  refine .loop (.get_bind fun _ => .ite (.pure _) ?_)
  exact .of_true (h.expression.bind fun _ => accept_carries)

theorem condition_carries : Carries c (fun _ => condition rules) true :=
  expect_carries.bind fun _ => h.expression.bind fun _ => expect_carries

theorem loopBody_carries {keyword : String} : Carries true (fun _ => loopBody rules keyword) true := by
  refine accept_carries.bind fun _ => .ite ((statementList_carries h).bind fun _ => ?_) ?_
  · exact expectKeyword_carries.bind fun _ => endStatement_carries
  · exact h.statement.carries

theorem compoundStatement_appends : Appends C (compoundStatement rules) :=
  .phrase_of_carries rfl (braced_carries h)

/-! ### Simple statements -/

theorem expressionStatement_appends : Appends C (expressionStatement rules) := by
  refine .get_bind fun _ _ => .ite (.phrase_of_carries rfl ?_) .pure
  exact h.expression.bind fun _ => endStatement_carries

theorem jump_appends (hkind : kind.isList = false) : Appends Starting (jump rules kind) := by
  refine .phrase_of_begins hkind (advance_begins.bind fun _ => .get_bind fun _ => ?_)
  exact .when h.expression fun _ => endStatement_carries

theorem operands_appends (hkind : kind.isList = false) : Appends Starting (operands rules kind) := by
  refine .phrase_of_begins hkind (advance_begins.bind fun _ => ?_)
  exact (expressionsUntil_carries h).bind fun _ => endStatement_carries

theorem throwStatement_appends : Appends C (throwStatement rules) :=
  .phrase_of_carries rfl (advance_carries.bind fun _ => h.expression.bind fun _ =>
    endStatement_carries)

/-! ### Control flow -/

theorem alternativeClauses_carries {ends : List String} :
    Carries c (fun _ => alternativeClauses rules ends) c := by
  refine .loop (.get_bind fun _ => .ite ?_ (.ite ?_ (.pure _)))
  · refine .bind (.of_true (.phrase rfl ?_)) fun _ => .pure _
    refine advance_carries.bind fun _ => (condition_carries h).bind fun _ => ?_
    exact expect_carries.bind fun _ => statementList_carries h
  · refine .bind (.of_true (.phrase rfl ?_)) fun _ => .pure _
    exact advance_carries.bind fun _ => expect_carries.bind fun _ => statementList_carries h

theorem ifStatement_appends : Appends C (ifStatement rules) := by
  have helseIf : Carries true (fun _ => phrase .elseIfClause do
      advance
      condition rules
      rules .statement) true :=
    .phrase rfl (advance_carries.bind fun _ => (condition_carries h).bind fun _ =>
      h.statement.carries)
  have helse : Begins true (fun _ => phrase .elseClause do
      advance
      rules .statement) :=
    .phrase rfl (advance_begins.bind fun _ => h.statement.carries)
  refine .phrase_of_carries rfl (advance_carries.bind fun _ => (condition_carries h).bind fun _ => ?_)
  refine accept_carries.bind fun _ => .ite ?_ (h.statement.carries.bind fun _ => ?_)
  · refine (statementList_carries h).bind fun _ => (alternativeClauses_carries h).bind fun _ => ?_
    exact expectKeyword_carries.bind fun _ => endStatement_carries
  · refine .bind (.loopWhile helseIf) fun _ => Meets.get_bind fun b => .ite (fun hword => ?_) fun _ => ?_
    · exact helse.pinned (atEnd_of_isKeyword hword)
    · exact (Carries.pure _).pinned

theorem whileStatement_appends : Appends C (whileStatement rules) :=
  .phrase_of_carries rfl (advance_carries.bind fun _ => (condition_carries h).bind fun _ =>
    loopBody_carries h)

theorem doStatement_appends : Appends Starting (doStatement rules) := by
  refine .phrase_of_begins rfl (advance_begins.bind fun _ => h.statement.carries.bind fun _ => ?_)
  refine expectKeyword_carries.bind fun _ => (condition_carries h).bind fun _ => ?_
  exact endStatement_carries

theorem forStatement_appends : Appends C (forStatement rules) := by
  refine .phrase_of_carries rfl (advance_carries.bind fun _ => expect_carries.bind fun _ => ?_)
  refine (expressionsUntil_carries h).bind fun _ => expect_carries.bind fun _ => ?_
  refine (expressionsUntil_carries h).bind fun _ => expect_carries.bind fun _ => ?_
  refine (expressionsUntil_carries h).bind fun _ => expect_carries.bind fun _ => ?_
  exact loopBody_carries h

theorem foreachBinding_carries : Carries c (fun _ => foreachBinding rules) true := by
  have hvalue : Carries true (fun _ => phrase .foreachValue do
      skipOptional .ampersand
      rules .expression) true :=
    .phrase rfl (skipOptional_carries.bind fun _ => h.expression)
  refine .marked (skipOptional_carries.bind fun _ => h.expression.bind fun _ => .get_bind fun _ => ?_)
  refine .ite ((finish_carries rfl).bind fun _ => ?_) (finish_carries rfl)
  exact advance_carries.bind fun _ => hvalue

theorem foreachStatement_appends : Appends C (foreachStatement rules) := by
  have hcollection {c : Bool} :
      Carries c (fun _ => phrase .foreachCollection (rules .expression)) true :=
    .phrase rfl h.expression
  refine .phrase_of_carries rfl (advance_carries.bind fun _ => expect_carries.bind fun _ => ?_)
  refine hcollection.bind fun _ => expectKeyword_carries.bind fun _ => ?_
  refine (foreachBinding_carries h).bind fun _ => expect_carries.bind fun _ => ?_
  exact loopBody_carries h

theorem switchCase_carries {isEnd : Builder → Bool} :
    Carries c (fun _ => switchCase rules isEnd) true := by
  refine .phrase rfl (.get_bind fun _ => advance_carries.bind fun _ => ?_)
  refine .whenever h.expression.loosen fun _ _ => accept_meets.bind fun colon => ?_
  cases colon with
  | true => exact statementList_carries h
  | false =>
      refine accept_meets.bind fun semicolon => ?_
      cases semicolon with
      | true => exact statementList_carries h
      | false => exact report_carries.bind fun _ => statementList_carries h

theorem switchCases_carries {isEnd : Builder → Bool} :
    Carries c (fun _ => switchCases rules isEnd) c := by
  refine .loopWhile (.get_bind fun _ => .ite (switchCase_carries h).of_true ?_)
  exact skipToken_carries

theorem switchStatement_appends : Appends C (switchStatement rules) := by
  refine .phrase_of_carries rfl (advance_carries.bind fun _ => (condition_carries h).bind fun _ => ?_)
  refine accept_carries.bind fun _ => .ite ?_ (expect_carries.bind fun _ => ?_)
  · refine (switchCases_carries h).bind fun _ => ?_
    exact expectKeyword_carries.bind fun _ => endStatement_carries
  · exact (switchCases_carries h).bind fun _ => expect_carries

theorem catchClause_carries : Carries c (fun _ => catchClause rules) true := by
  refine .phrase rfl (advance_carries.bind fun _ => expect_carries.bind fun _ => ?_)
  refine h.typeDeclaration.bind fun _ => skipOptional_carries.bind fun _ => ?_
  exact expect_carries.bind fun _ => compoundStatement_carries h

theorem tryStatement_appends : Appends C (tryStatement rules) := by
  have hfinally : Carries true (fun _ => phrase .finallyClause do
      advance
      compoundStatement rules) true :=
    .phrase rfl (advance_carries.bind fun _ => compoundStatement_carries h)
  refine .phrase_of_carries rfl (advance_carries.bind fun _ => ?_)
  refine (compoundStatement_carries h).bind fun _ => .bind (.loopWhile (catchClause_carries h)) ?_
  exact fun _ => .get_bind fun _ => .ite hfinally (.pure _)

theorem declareStatement_appends : Appends C (declareStatement rules) := by
  refine .phrase_of_carries rfl (advance_carries.bind fun _ => expect_carries.bind fun _ => ?_)
  refine (expressionsUntil_carries h).bind fun _ => expect_carries.bind fun _ => ?_
  refine .get_bind fun _ => .ite (loopBody_carries h) (accept_carries.bind fun _ => ?_)
  exact .ite h.statement.carries (.pure _)

/-! ### Variables, namespaces and constants -/

theorem staticVariables_appends : Appends C (staticVariables rules) := by
  refine .phrase_of_carries rfl (advance_carries.bind fun _ =>
    .bind (.loop_closes (.marked ?_)) fun _ => endStatement_carries)
  refine expect?_carries.bind fun _ => .ite (accept_carries.bind fun _ => ?_) (.pure _)
  exact .when h.expression fun _ => (finish_carries rfl).bind fun _ => accept_carries

theorem namespaceDefinition_appends : Appends Starting (namespaceDefinition rules) := by
  refine .phrase_of_begins rfl (advance_begins.bind fun _ => optionalName_carries fun _ => ?_)
  exact .get_bind fun _ => .ite (compoundStatement_carries h) endStatement_carries

theorem constDeclaration_appends : Appends C (constDeclaration rules) := by
  refine .phrase_of_carries rfl (advance_carries.bind fun _ => ?_)
  exact (constElements_carries h rfl).bind fun _ => endStatement_carries

/-! ### By first token -/

theorem labelOrExpression_appends : Appends Starting (labelOrExpression rules) :=
  .get_bind fun _ _ => .ite label_appends (expressionStatement_appends h)

theorem keywordStatement_appends : Appends Starting (keywordStatement rules) := by
  have hif {d : Prop} [Decidable d] {p : Parser Unit} (hp : Appends Starting p) :
      Appends Starting (if d then p else labelOrExpression rules) :=
    .ite hp (labelOrExpression_appends h)
  refine .get_bind fun b _ => ?_
  dsimp only
  split
  · exact hif (functionDeclaration_appends h)
  · exact hif (classDeclaration_appends h rfl)
  · exact hif (classDeclaration_appends h rfl)
  · exact hif (classDeclaration_appends h rfl)
  · exact hif (classDeclaration_appends h rfl)
  · exact hif (classDeclaration_appends h rfl)
  · exact hif (classDeclaration_appends h rfl)
  · exact hif (classDeclaration_appends h rfl)
  · exact hif (namespaceDefinition_appends h)
  · exact useDeclaration_appends
  · exact constDeclaration_appends h
  · exact ifStatement_appends h
  · exact whileStatement_appends h
  · exact doStatement_appends h
  · exact forStatement_appends h
  · exact foreachStatement_appends h
  · exact switchStatement_appends h
  · exact jump_appends h rfl
  · exact jump_appends h rfl
  · exact jump_appends h rfl
  · exact operands_appends h rfl
  · exact operands_appends h rfl
  · exact hif (staticVariables_appends h)
  · exact tryStatement_appends h
  · exact throwStatement_appends h
  · exact hif (declareStatement_appends h)
  · exact hif gotoStatement_appends
  · exact expressionStatement_appends h
  · exact expressionStatement_appends h
  · exact expressionStatement_appends h
  · exact labelOrExpression_appends h

theorem statement_appends : Appends (fun _ => True) (statement rules) := by
  have hat {k : TokenKind} {p : Parser Unit} {b₀ : Builder} (hk : b₀.kind? = some k)
      (hp : Appends Starting p) : Appends (· = b₀) p :=
    hp.imp fun b hb => hb ▸ atEnd_of_kind? hk
  have htext {k : TokenKind} {b₀ : Builder} (hk : b₀.kind? = some k)
      (hmem : k ∈ [.inlineHtml, .openTag, .closeTag]) : Appends (· = b₀) inlineText := by
    refine inlineText_appends.imp ?_
    rintro _ rfl
    simpa [isAtAny, hk] using hmem
  refine .nested (.get_bind_pinned fun b => ?_)
  split
  next => exact .pure
  next hk => exact htext hk (by simp)
  next hk => exact htext hk (by simp)
  next hk => exact htext hk (by simp)
  next hk => exact hat hk (operands_appends h rfl)
  next hk => exact compoundStatement_appends h
  next hk => exact hat hk nullStatement_appends
  next hk => exact hat hk (keywordStatement_appends h)
  next => exact expressionStatement_appends h

omit h

/-- Induction on the fuel: a rule keeps to its contract if the rules that it refers to do. -/
theorem rulesAttach_run (fuel : Nat) : RulesAttach (run fuel) := by
  induction fuel with
  | zero => exact ⟨.failure, .failure, .failure, .failure, .failure, .failure, fun _ => .failure⟩
  | succ fuel ih =>
      exact ⟨expression_carries ih, assignment_carries ih, binary_carries ih, unary_carries ih,
        simpleVariable_carries ih, typeDeclaration_carries ih, statement_appends ih⟩

/-- At the root nothing stands before the list. -/
theorem rootList_meets (fuel : Nat) :
    Meets (fun L _ => L = []) (fun _ => statementList (run fuel) fun _ => false) fun _ L b =>
      b.lastReport = none → ∃ list, L = [list] ∧ list.isListPhrase = true ∧
        ∀ t ∈ list.preorder, t.Neat := by
  apply Meets.listPhrase
  rintro _ b rfl
  refine (statements_listed (rulesAttach_run fuel)).imp (fun _ _ hL => hL.1) ?_
  intro _ L b hL _ id pos stop start hclean
  obtain ⟨horderly, -⟩ := hL hclean
  refine ⟨_, rfl, rfl, fun t ht => ?_⟩
  rcases List.mem_cons.1 ht with rfl | ht
  · exact horderly.attached
  · exact horderly.neat t ht

theorem script_meets : Meets (fun L _ => L = []) (fun _ => script) fun _ L b => b.lastReport = none →
    ∃ blanks root, L = blanks ++ [root] ∧ root.Rooted := by
  apply Meets.mark_bind
  rintro _ b blanks rfl -
  refine .get_bind fun b₀ => .bind ((rootList_meets _).imp (fun _ _ hL => hL.1.1) fun _ _ _ => id) ?_
  refine fun _ => .bind (Q := fun _ L b => b.lastReport = none → ∃ list blanks, L = list :: blanks ∧
    list.isListPhrase = true ∧ (∀ t ∈ list.preorder, t.Neat) ∧ ∀ x ∈ blanks, x.isTrivia = true) ?_ ?_
  · refine Meets.flush fun L b blanks hL hblanks hclean => ?_
    obtain ⟨list, rfl, hlist, hneat⟩ := hL (by simpa [lastReport_flush] using hclean)
    exact ⟨list, blanks, rfl, hlist, hneat, hblanks⟩
  · refine fun _ => Meets.finish fun L b base id pos stop hL _ hclean => ?_
    obtain ⟨list, blanks', rfl, hlist⟩ := hL hclean
    exact ⟨blanks, _, rfl, id, pos, stop, list, blanks', rfl, hlist⟩

end ArrayShapes.Syntax.Grammar
