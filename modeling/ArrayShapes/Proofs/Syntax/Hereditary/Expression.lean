import ArrayShapes.Proofs.Syntax.Hereditary.Declaration

/-!
Expressions keep what the rules keep. Operands leave no operation on top: what stands in front of an
operator, or behind it, is one only if a rule for operators has read it.
-/

namespace ArrayShapes.Syntax.Grammar

open ArrayShapes.Syntax.Parser ArrayShapes.Syntax.Tree Builder

variable {ok : Tree → Prop} {rules : Rules}

theorem shellCommand_retains (hok : Hereditary ok) : Retains (Simple ok) fun _ => shellCommand := by
  have htokens : Steady (AllOf ok) := steady_allOf hok.token
  apply Retains.phrase_simple hok rfl
  exact htokens.advance.bind fun _ => .bind (.loopWhile htokens.advance) fun _ => htokens.expect

theorem constantName_retains (hok : Hereditary ok) : Retains (Simple ok) fun _ => constantName := by
  apply Retains.mark_bind hok.simple_token
  refine (qualifiedName_retains hok).bind fun _ => .get_bind fun _ => .ite ?_ (.pure _)
  exact Retains.finish hok.simple rfl

variable (h : RulesRetain ok rules)
include h

theorem RulesRetain.simple {kind : PhraseKind} {body : Parser Unit}
    (hkind : kind.isOrdinary = true) (hbody : Retains ok fun _ => body) :
    Retains (Simple ok) fun _ => Parser.phrase kind body :=
  Retains.phrase_simple h.hereditary hkind hbody

theorem RulesRetain.closes {kind : PhraseKind} (hkind : kind.isOrdinary = true) :
    Closes ok fun start => Parser.finish kind start :=
  Retains.finish_simple h.hereditary hkind

/-! ### From loose to tight -/

theorem ternary_retains : Retains ok fun _ => ternary rules := by
  refine h.marked ((h.rule (.binary 0)).bind fun _ => .loopWhile (h.steady.advance.bind fun _ => ?_))
  refine .get_bind fun _ => .when (h.rule .assignment) fun _ => h.steady.expect.bind fun _ => ?_
  exact (h.rule .assignment).bind fun _ => h.finish rfl

theorem looseKeyword_retains : Retains (Simple ok) fun _ => looseKeyword rules := by
  refine h.simple rfl (.get_bind fun _ => h.steady.advance.bind fun _ => ?_)
  refine .when h.steady.skipOptionalKeyword fun _ => .get_bind fun _ => ?_
  exact .ite (h.rule .assignment) (.pure _)

theorem assignment_retains : Retains ok fun _ => assignment rules := by
  refine h.marked (.get_bind fun _ => .ite (looseKeyword_retains h).of_simple ?_)
  refine (ternary_retains h).bind fun _ => .get_bind fun b => ?_
  cases b.kind? with
  | none => exact .pure _
  | some kind =>
      cases kind with
      | equals =>
          refine h.steady.advance.bind fun _ => h.steady.skipOptional.bind fun _ => ?_
          exact (h.rule .assignment).bind fun _ => h.finish rfl
      | compoundAssignment =>
          exact h.steady.advance.bind fun _ => (h.rule .assignment).bind fun _ => h.finish rfl
      | _ => exact .pure _

theorem assignment_of_looseKeyword :
    Meets (fun L b => AllOf (Simple ok) L b ∧ b.isAnyKeyword looseKeywords = true)
      (fun _ => assignment rules) fun _ => AllOf (Simple ok) := by
  apply Meets.mark_bind
  rintro L b blanks ⟨hL, hword⟩ hblanks
  refine .get_bind fun b₀ => .ite (fun _ => ?_) fun hnot => .of_holds (c := False) ?_ False.elim
  · apply (looseKeyword_retains h).imp
    · rintro _ _ ⟨⟨rfl, -⟩, -⟩
      exact allOf_nil
    · intro _ L' b' hL' _
      exact allOf_append (allOf_append (b := b) hL
        (forall_blanks h.hereditary.simple_token hblanks)) hL'
  · rintro _ _ ⟨⟨-, rfl⟩, rfl⟩
    rw [isAnyKeyword, flush_word?] at hnot
    exact hnot hword

/-! ### Postfix phrases -/

theorem RulesRetain.nameless {k : TokenKind} (hk : k ≠ .variableName) (id : Nat) (t : Token)
    (ht : t.kind = k ∨ t.isTrivia = true) :
    ok (.token id t) ∧ Tree.tokenKind? (.token id t) ≠ some .variableName := by
  refine ⟨h.hereditary.token id t, fun hname => ?_⟩
  have hname : t.kind = .variableName := by simpa [Tree.tokenKind?] using hname
  rcases ht with ht | ht
  · exact hk (ht.symm.trans hname)
  · simp [Token.isTrivia, hname, TokenKind.isTrivia] at ht

/-- Either the name is all there is, or none stands among the children. -/
theorem simpleVariable_retains (hs : RulesSettled rules) :
    Retains (Simple ok) fun _ => simpleVariable rules := by
  have hdollar : Retains (fun x => (ok x ∧ x.tokenKind? ≠ some .variableName) ∧ x.phraseKind? = none)
      fun _ => accept .dollar :=
    Retains.accept fun id t ht => ⟨h.nameless (by decide) id t ht, rfl⟩
  have hname : Retains (fun x => ok x ∧ x.phraseKind? = none) fun _ =>
      expect .variableName "$variable" :=
    (steady_allOf fun id t => ⟨h.hereditary.token id t, rfl⟩).expect
  have hexpression := Retains.of_operand hs.expression (h.rule .expression)
  have hvariable := Retains.of_operand hs.simpleVariable (h.rule .simpleVariable)
  apply Retains.phrase_of_meets h.hereditary.simple_token
  refine Meets.bind (Q := fun _ L _ => IsNaming L ∧ ∀ x ∈ L, ok x) (Meets.bind
    (hdollar.imp (fun _ _ hnil => hnil ▸ allOf_nil) fun _ _ _ => id) fun _ =>
      .ite (fun _ => ?_) fun _ => ?_) fun _ => Meets.finish ?_
  · apply Meets.imp (Maintains.bind (Retains.accept (h.nameless (by decide))) fun _ => .ite
      (hexpression.bind fun _ => Retains.expect (h.nameless (by decide)))
      (.get_bind fun _ => .ite hvariable (Meets.report fun _ _ hL => hL)))
    · exact fun _ _ hL x hx => (hL x hx).1
    · exact fun _ _ _ hL => ⟨.inr fun x hx => (hL x hx).2, fun x hx => (hL x hx).1⟩
  · apply hname.imp
    · exact fun _ _ hL x hx => ⟨(hL x hx).1.1, (hL x hx).2⟩
    · exact fun _ _ _ hL => ⟨.inl fun x hx => (hL x hx).2, fun x hx => (hL x hx).1⟩
  · rintro L b base id pos stop ⟨hnaming, hL⟩ x hx
    rw [List.mem_singleton.1 hx]
    exact h.hereditary.simple_naming id pos stop hnaming hL

theorem bracedExpression_retains : Retains ok fun _ => bracedExpression rules :=
  h.steady.advance.bind fun _ => (h.rule .expression).bind fun _ => h.steady.expect

theorem memberName_retains : Retains ok fun _ => memberName rules := by
  refine h.phrase rfl (.get_bind fun _ => .ite h.steady.advance (.ite (h.rule .simpleVariable) ?_))
  exact .ite (bracedExpression_retains h) (h.steady.report _)

theorem argument_retains : Retains ok fun _ => argument rules := by
  refine h.marked (.get_bind fun _ => .ite ?_ (.ite ?_ (h.rule .expression)))
  · exact h.steady.advance.bind fun _ => (h.rule .expression).bind fun _ => h.finish rfl
  · refine h.steady.advance.bind fun _ => h.steady.advance.bind fun _ => ?_
    exact (h.rule .expression).bind fun _ => h.finish rfl

theorem arguments_retains : Retains ok fun _ => arguments rules := by
  refine h.phrase rfl (.loop (.get_bind fun _ => .ite (.pure _) (.ite ?_ ?_)))
  · exact h.steady.advance.bind fun _ => .pure _
  · exact (argument_retains h).progress.bind fun _ => .ite h.steady.accept (.pure _)

theorem argumentList_retains : Retains ok fun _ => argumentList rules :=
  h.steady.expect.bind fun _ => (arguments_retains h).bind fun _ => h.steady.expect

/-! ### Around an operand -/

theorem subscript_closes : Closes ok fun start => subscript rules start := by
  refine .after h.steady.advance fun _ => .get_bind fun _ => .when (h.rule .expression) fun _ => ?_
  exact .after h.steady.expect fun _ => h.closes rfl

theorem memberAccess_closes : Closes ok fun start => memberAccess rules start := by
  refine .after h.steady.advance fun _ => .after (memberName_retains h) fun _ => ?_
  refine .get_bind fun _ => .ite ?_ (h.closes rfl)
  exact .after (argumentList_retains h) fun _ => h.closes rfl

theorem scopedAccess_closes : Closes ok fun start => scopedAccess rules start := by
  refine .after h.steady.advance fun _ => .get_bind fun _ => .after (h.phrase rfl ?_) fun _ => ?_
  · refine .ite (h.rule .simpleVariable) (.get_bind fun _ => ?_)
    exact .ite (bracedExpression_retains h) h.steady.expect
  · refine .get_bind fun _ => .ite ?_ (.ite (h.closes rfl) (h.closes rfl))
    exact .after (argumentList_retains h) fun _ => h.closes rfl

theorem postfixStep_retains : Retains (Simple ok) fun start => postfixStep rules start := by
  refine .get_bind fun b => ?_
  cases b.kind? with
  | none => exact .pure _
  | some kind =>
      cases kind with
      | openBracket => exact (subscript_closes h).go.retains
      | arrow | nullsafeArrow => exact (memberAccess_closes h).go.retains
      | colonColon => exact (scopedAccess_closes h).go.retains
      | openParen =>
          exact (Closes.after (argumentList_retains h) fun _ => (h.closes rfl).go).retains
      | plusPlus | minusMinus =>
          exact (Closes.after h.steady.advance fun _ => (h.closes rfl).go).retains
      | _ => exact .pure _

/-! ### Primary expressions -/

theorem arrayElement_retains : Retains ok fun _ => arrayElement rules := by
  refine h.phrase rfl (h.marked (.get_bind fun _ => .ite ?_ ?_))
  · exact h.steady.advance.bind fun _ => (h.rule .expression).bind fun _ => h.finish rfl
  · refine (h.rule .expression).bind fun _ => .get_bind fun _ => .ite ?_ (h.finish rfl)
    refine (h.finish rfl).bind fun _ => h.steady.advance.bind fun _ => h.phrase rfl ?_
    exact h.steady.skipOptional.bind fun _ => h.rule .expression

theorem arrayElements_retains {close : TokenKind} :
    Retains ok fun _ => arrayElements rules close := by
  refine h.phrase rfl (.loop (.get_bind fun _ => .ite (.pure _) (h.steady.accept.bind fun _ => ?_)))
  refine .ite (.pure _) ((arrayElement_retains h).progress.bind fun _ => ?_)
  exact .ite h.steady.accept (.pure _)

theorem arrayCreation_retains : Retains (Simple ok) fun _ => arrayCreation rules := by
  refine h.simple rfl (h.steady.accept.bind fun _ => .ite ?_ ?_)
  · exact (arrayElements_retains h).bind fun _ => h.steady.expect
  · refine h.steady.advance.bind fun _ => h.steady.expect.bind fun _ => ?_
    exact (arrayElements_retains h).bind fun _ => h.steady.expect

theorem useClause_retains : Retains ok fun _ => useClause rules := by
  refine .get_bind fun _ => .when (h.phrase rfl ?_) fun _ => returnType_retains h
  refine h.steady.advance.bind fun _ => h.steady.expect.bind fun _ =>
    .bind (.loop (.get_bind fun _ => .ite (.pure _) ?_)) fun _ => h.steady.expect
  refine h.marked (h.steady.skipOptional.bind fun _ => h.steady.expect?.bind fun _ => ?_)
  exact .ite ((h.finish rfl).bind fun _ => h.steady.accept) (.pure _)

theorem anonymousFunction_retains : Retains (Simple ok) fun _ => anonymousFunction rules := by
  refine h.simple rfl (h.steady.skipOptionalKeyword.bind fun _ => .bind (h.phrase rfl ?_) fun _ =>
    functionBody_retains h)
  refine h.steady.advance.bind fun _ => h.steady.skipOptional.bind fun _ => ?_
  exact (parameterList_retains h).bind fun _ => useClause_retains h

theorem arrowFunction_retains : Retains (Simple ok) fun _ => arrowFunction rules := by
  refine h.simple rfl (h.steady.skipOptionalKeyword.bind fun _ => .bind (h.phrase rfl ?_) fun _ =>
    h.steady.expect.bind fun _ => h.phrase rfl (h.rule .assignment))
  refine h.steady.advance.bind fun _ => h.steady.skipOptional.bind fun _ => ?_
  exact (parameterList_retains h).bind fun _ => returnType_retains h

theorem anonymousClass_retains : Retains ok fun _ => anonymousClass rules := by
  refine h.phrase rfl (h.steady.advance.bind fun _ => .get_bind fun _ => ?_)
  refine .when (argumentList_retains h) fun _ => (classHeritage_retains h.hereditary).bind fun _ => ?_
  exact classBody_retains h

theorem classDesignator_retains : Retains ok fun _ => classDesignator rules := by
  refine h.phrase rfl (.get_bind fun _ => .ite (qualifiedName_retains h.hereditary).of_simple ?_)
  refine .ite (h.rule .simpleVariable) (.ite ?_ (h.steady.report _))
  exact h.steady.advance.bind fun _ => (h.rule .expression).bind fun _ => h.steady.expect

theorem objectCreation_retains : Retains (Simple ok) fun _ => objectCreation rules := by
  refine h.simple rfl (h.steady.advance.bind fun _ => .get_bind fun _ => ?_)
  refine .ite (anonymousClass_retains h) ((classDesignator_retains h).bind fun _ => ?_)
  exact .get_bind fun _ => .ite (argumentList_retains h) (.pure _)

theorem matchArm_retains : Retains ok fun _ => matchArm rules := by
  have hconditions : Retains ok fun _ => matchConditions rules := by
    refine .loop ((h.rule .expression).bind fun _ => h.steady.accept.bind fun _ => ?_)
    exact .ite (.get_bind fun _ => .pure _) (.pure _)
  refine h.phrase rfl (h.steady.acceptKeyword.bind fun _ => .when hconditions fun _ => ?_)
  exact h.steady.expect.bind fun _ => h.rule .expression

theorem matchExpression_retains : Retains (Simple ok) fun _ => matchExpression rules := by
  refine h.simple rfl (h.steady.advance.bind fun _ => h.steady.expect.bind fun _ => ?_)
  refine (h.rule .expression).bind fun _ => h.steady.expect.bind fun _ => ?_
  refine h.steady.expect?.bind fun _ => .ite (.bind (.loop (.get_bind fun _ => ?_)) fun _ =>
    h.steady.expect) (.pure _)
  refine .ite (.pure _) ((matchArm_retains h).progress.bind fun _ => ?_)
  exact .ite h.steady.accept (.pure _)

theorem parenthesized_retains : Retains (Simple ok) fun _ => parenthesized rules :=
  h.simple rfl (h.steady.advance.bind fun _ => (h.rule .expression).bind fun _ => h.steady.expect)

theorem nameExpression_retains : Retains (Simple ok) fun _ => nameExpression rules := by
  refine .get_bind fun _ => .ite (arrayCreation_retains h) (.ite (anonymousFunction_retains h) ?_)
  refine .ite (arrowFunction_retains h) (.ite (objectCreation_retains h) ?_)
  exact .ite (matchExpression_retains h) (constantName_retains h.hereditary)

theorem primary_retains : Retains (Simple ok) fun _ => primary rules := by
  have htokens : Steady (AllOf (Simple ok)) := steady_allOf h.hereditary.simple_token
  have hmissing : Retains (Simple ok) fun _ => (do
      report (.missing .expression)
      phrase .error (pure ()) : Parser Unit) :=
    (htokens.report _).bind fun _ => h.simple rfl (.pure _)
  refine .get_bind fun b => ?_
  cases b.kind? with
  | none => exact hmissing
  | some kind =>
      cases kind with
      | variableName | dollar => exact h.simpleVariable
      | integerLiteral | floatingLiteral | stringLiteral | heredoc => exact htokens.advance
      | openBracket => exact arrayCreation_retains h
      | openParen => exact parenthesized_retains h
      | backtick => exact shellCommand_retains h.hereditary
      | name => exact nameExpression_retains h
      | _ => exact hmissing

theorem postfixExpression_retains : Retains (Simple ok) fun _ => postfixExpression rules := by
  apply Retains.mark_bind h.hereditary.simple_token
  exact (primary_retains h).bind fun _ => .loop (postfixStep_retains h)

theorem unary_retains : Retains (Simple ok) fun _ => unary rules := by
  have htokens : Steady (AllOf (Simple ok)) := steady_allOf h.hereditary.simple_token
  have hfinish {kind : PhraseKind} (hkind : kind.isOrdinary = true) :
      Retains (Simple ok) fun start => finish kind start :=
    Retains.finish h.hereditary.simple hkind
  have hsign {kind : PhraseKind} (hkind : kind.isOrdinary = true) :
      Retains (Simple ok) fun start => (do
        advance
        rules .unary
        finish kind start : Parser Unit) :=
    htokens.advance.bind fun _ => h.unary.bind fun _ => hfinish hkind
  have hpin {b₀ : Builder} {p : Nat → Parser Unit} (hp : Retains (Simple ok) p) :
      Meets (fun L b => AllOf (Simple ok) L b ∧ b = b₀) p fun _ => AllOf (Simple ok) :=
    hp.imp (fun _ _ hb => hb.1) fun _ _ _ => id
  apply Retains.nested h.hereditary fun _ => id
  apply Retains.mark_bind h.hereditary.simple_token
  refine Meets.get_bind fun b₀ => .ite (fun _ => hpin (hsign rfl)) fun _ => ?_
  refine .ite (fun _ => hpin (hsign rfl)) fun _ => .ite (fun _ => hpin (hsign rfl)) fun _ => ?_
  refine .ite (fun hword => ?_) fun _ => hpin ?_
  · apply h.looseKeyword.imp
    · rintro L b ⟨hL, rfl⟩
      exact ⟨hL, hword⟩
    · exact fun _ _ _ => id
  · refine (postfixExpression_retains h).bind fun _ => htokens.accept.bind fun _ => ?_
    exact .ite (h.unary.bind fun _ => hfinish rfl) (.pure _)

end ArrayShapes.Syntax.Grammar
