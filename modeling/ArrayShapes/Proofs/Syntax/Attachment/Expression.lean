import ArrayShapes.Proofs.Syntax.Attachment.Declaration

/-!
Expressions close what they leave: each ends in a token that is not blank, unless a problem is found.
-/

namespace ArrayShapes.Syntax.Grammar

open ArrayShapes.Syntax.Parser Builder

variable {rules : Rules} {c : Bool}

theorem operator_isPlain {b : Builder} {op : Operator} (hop : operatorAhead? b = some op) :
    op.kind.isPlain = true := by
  unfold operatorAhead? at hop
  split at hop
  · cases hop
    rfl
  · obtain ⟨kind, -, hkind⟩ := Option.bind_eq_some_iff.1 hop
    cases kind <;> cases hkind <;> rfl

theorem shellCommand_carries : Carries c (fun _ => shellCommand) true := by
  refine .phrase rfl (advance_carries.bind fun _ => .bind (.loopWhile advance_carries) fun _ => ?_)
  exact expect_carries

theorem constantName_begins : Begins c fun _ => constantName := by
  refine .marked (qualifiedName_begins.bind fun _ => .get_bind fun _ => ?_)
  exact .ite (finish_carries rfl) (.pure _)

variable (h : RulesAttach rules)
include h

/-! ### From loose to tight -/

theorem expression_carries : Carries c (fun _ => expression rules) true := by
  refine .nested (.marked (h.assignment.bind fun _ => .loopWhile (advance_carries.bind fun _ => ?_)))
  exact h.assignment.bind fun _ => finish_carries rfl

theorem ternary_carries : Carries c (fun _ => ternary rules) true := by
  refine .marked (h.binary.bind fun _ => .loopWhile (advance_carries.bind fun _ => ?_))
  refine .get_bind fun _ => .when h.assignment fun _ => expect_carries.bind fun _ => ?_
  exact h.assignment.bind fun _ => finish_carries rfl

theorem looseKeyword_begins : Begins c fun _ => looseKeyword rules := by
  refine .phrase rfl (.get_bind fun _ => advance_begins.bind fun _ => ?_)
  refine .when steady_sound.skipOptionalKeyword fun _ => .get_bind fun _ => ?_
  exact .ite h.assignment (.pure _)

theorem assignment_carries : Carries c (fun _ => assignment rules) true := by
  refine .marked (Meets.get_bind fun b => .ite (fun hloose => ?_) fun _ => ?_)
  · exact (looseKeyword_begins h).pinned (atEnd_of_isAnyKeyword hloose)
  · refine Carries.pinned ((ternary_carries h).bind fun _ => .get_bind fun b => ?_)
    cases b.kind? with
    | none => exact .pure _
    | some kind =>
        cases kind with
        | equals =>
            refine advance_carries.bind fun _ => skipOptional_carries.bind fun _ => ?_
            exact h.assignment.bind fun _ => finish_carries rfl
        | compoundAssignment =>
            refine advance_carries.bind fun _ => h.assignment.bind fun _ => ?_
            exact finish_carries rfl
        | _ => exact .pure _

theorem binary_carries {least : Nat} : Carries c (fun _ => binary rules least) true := by
  refine .marked (h.unary.bind fun _ => .loop (.get_bind fun b => ?_))
  cases hop : operatorAhead? b with
  | none => exact .pure _
  | some op =>
      refine .ite (.pure _) (advance_carries.bind fun _ => h.binary.bind fun _ => ?_)
      exact (finish_carries (operator_isPlain hop)).bind fun _ => .pure _

/-! ### Postfix phrases -/

theorem simpleVariable_carries : Carries c (fun _ => simpleVariable rules) true := by
  refine .phrase rfl (accept_meets.bind fun dollar => ?_)
  cases dollar with
  | false => exact expect_carries
  | true =>
      refine Carries.bind accept_carries fun _ => .ite ?_ (.get_bind fun _ => ?_)
      · exact h.expression.bind fun _ => expect_carries
      · exact .ite h.simpleVariable report_carries

theorem bracedExpression_carries : Carries c (fun _ => bracedExpression rules) true :=
  advance_carries.bind fun _ => h.expression.bind fun _ => expect_carries

theorem memberName_carries : Carries c (fun _ => memberName rules) true := by
  refine .phrase rfl (Meets.get_bind fun b => .ite (fun hname => ?_) fun _ => ?_)
  · exact advance_begins.pinned (atEnd_of_isAt hname)
  · exact Carries.pinned (.ite h.simpleVariable (.ite (bracedExpression_carries h) report_carries))

theorem argument_carries : Carries c (fun _ => argument rules) true := by
  refine .marked (.get_bind fun _ => .ite ?_ (.ite ?_ h.expression))
  · exact advance_carries.bind fun _ => h.expression.bind fun _ => finish_carries rfl
  · refine advance_carries.bind fun _ => advance_carries.bind fun _ => ?_
    exact h.expression.bind fun _ => finish_carries rfl

theorem arguments_carries : Carries c (fun _ => arguments rules) false := by
  refine .phrase rfl (.loop (.get_bind fun _ => .ite (.pure _) (.ite ?_ ?_)))
  · exact advance_carries.bind fun _ => .pure _
  · refine (argument_carries h).loosen.progress.bind fun _ => ?_
    exact .ite accept_carries (.pure _)

theorem argumentList_carries : Carries c (fun _ => argumentList rules) true :=
  expect_carries.bind fun _ => (arguments_carries h).bind fun _ => expect_carries

theorem subscript_carries : Carries c (fun start => subscript rules start) true := by
  refine advance_carries.bind fun _ => .get_bind fun _ => .whenever h.expression.loosen fun _ _ => ?_
  exact expect_carries.bind fun _ => finish_carries rfl

theorem memberAccess_carries : Carries c (fun start => memberAccess rules start) true := by
  refine advance_carries.bind fun _ => (memberName_carries h).bind fun _ => .get_bind fun _ => ?_
  exact .ite ((argumentList_carries h).bind fun _ => finish_carries rfl) (finish_carries rfl)

theorem scopedAccess_carries : Carries c (fun start => scopedAccess rules start) true := by
  have hname {ofVariable : Bool} : Carries c (fun _ => phrase .scopedMemberName do
      if ofVariable then rules .simpleVariable
      else if (← get).isAt .openBrace then bracedExpression rules
      else expect .name "identifier") true := by
    refine .phrase rfl (.ite h.simpleVariable (.get_bind fun _ => ?_))
    exact .ite (bracedExpression_carries h) expect_carries
  refine advance_carries.bind fun _ => .get_bind fun _ => hname.bind fun _ => .get_bind fun _ => ?_
  refine .ite ((argumentList_carries h).bind fun _ => finish_carries rfl) ?_
  exact .ite (finish_carries rfl) (finish_carries rfl)

theorem postfixStep_carries : Carries c (fun start => postfixStep rules start) c := by
  refine .get_bind fun b => ?_
  cases b.kind? with
  | none => exact .pure _
  | some kind =>
      cases kind with
      | openBracket => exact (subscript_carries h).of_true.bind fun _ => .pure _
      | arrow | nullsafeArrow => exact (memberAccess_carries h).of_true.bind fun _ => .pure _
      | colonColon => exact (scopedAccess_carries h).of_true.bind fun _ => .pure _
      | openParen =>
          exact .of_true ((argumentList_carries h).bind fun _ => (finish_carries rfl).bind fun _ =>
            .pure _)
      | plusPlus | minusMinus =>
          exact advance_carries.bind fun _ => (finish_carries rfl).bind fun _ => .pure _
      | _ => exact .pure _

/-! ### Primary expressions -/

theorem arrayElement_carries : Carries c (fun _ => arrayElement rules) true := by
  have hvalue : Carries true (fun _ => phrase .arrayValue do
      skipOptional .ampersand
      rules .expression) true :=
    .phrase rfl (skipOptional_carries.bind fun _ => h.expression)
  refine .phrase rfl (.marked (.get_bind fun _ => .ite ?_ (h.expression.bind fun _ => ?_)))
  · exact advance_carries.bind fun _ => h.expression.bind fun _ => finish_carries rfl
  · refine .get_bind fun _ => .ite ((finish_carries rfl).bind fun _ => ?_) (finish_carries rfl)
    exact advance_carries.bind fun _ => hvalue

theorem arrayElements_carries {close : TokenKind} :
    Carries c (fun _ => arrayElements rules close) false := by
  refine .phrase rfl (.loop (.get_bind fun _ => .ite (.pure _) (accept_carries.bind fun _ => ?_)))
  refine .ite (.pure _) ((arrayElement_carries h).loosen.progress.bind fun _ => ?_)
  exact .ite accept_carries (.pure _)

theorem arrayCreation_carries : Carries c (fun _ => arrayCreation rules) true := by
  have helements {c : Bool} (close : TokenKind) (text : String) : Carries c (fun _ => (do
      arrayElements rules close
      expect close text : Parser Unit)) true :=
    (arrayElements_carries h).bind fun _ => expect_carries
  refine .phrase rfl (accept_carries.bind fun _ => .ite (helements _ _) ?_)
  exact advance_carries.bind fun _ => expect_carries.bind fun _ => helements _ _

theorem useClause_carries : Carries c (fun _ => useClause rules) false := by
  have hclause : Carries c (fun _ => phrase .anonymousFunctionUseClause do
      advance
      expect .openParen "("
      loop do
        let b ← get
        if b.atEnd || b.isAt .closeParen then return false
        else
          let start ← mark
          skipOptional .ampersand
          if ← expect? .variableName "$variable" then
            finish .anonymousFunctionUseVariable start
            accept .comma
          else return false
      expect .closeParen ")") false := by
    refine .phrase rfl (advance_carries.bind fun _ => expect_carries.bind fun _ =>
      .bind (.loop (.get_bind fun _ => .ite (.pure _) (.marked ?_))) fun _ => expect_carries.loosen)
    refine skipOptional_carries.bind fun _ => expect?_carries.bind fun _ => .ite ?_ (.pure _)
    exact (finish_carries rfl).bind fun _ => accept_carries
  exact .get_bind fun _ => .whenever hclause fun _ _ => returnType_carries h

theorem anonymousFunction_carries : Carries c (fun _ => anonymousFunction rules) true := by
  have hheader {c : Bool} : Carries c (fun _ => phrase .anonymousFunctionHeader do
      advance
      skipOptional .ampersand
      parameterList rules
      useClause rules) false := by
    refine .phrase rfl (advance_carries.bind fun _ => skipOptional_carries.bind fun _ => ?_)
    exact (parameterList_carries h).bind fun _ => useClause_carries h
  refine .phrase rfl (.bind steady_sound.skipOptionalKeyword fun _ => hheader.bind fun _ => ?_)
  exact functionBody_carries h

theorem arrowFunction_carries : Carries c (fun _ => arrowFunction rules) true := by
  have hheader {c : Bool} : Carries c (fun _ => phrase .arrowFunctionHeader do
      advance
      skipOptional .ampersand
      parameterList rules
      returnType rules) false := by
    refine .phrase rfl (advance_carries.bind fun _ => skipOptional_carries.bind fun _ => ?_)
    exact (parameterList_carries h).bind fun _ => returnType_carries h
  refine .phrase rfl (.bind steady_sound.skipOptionalKeyword fun _ => hheader.bind fun _ => ?_)
  exact expect_carries.bind fun _ => .phrase rfl h.assignment

theorem anonymousClass_carries : Carries c (fun _ => anonymousClass rules) true := by
  refine .phrase rfl (advance_carries.bind fun _ => .get_bind fun _ => ?_)
  refine .whenever (argumentList_carries h).loosen fun _ _ => classHeritage_carries.bind fun _ => ?_
  exact classBody_carries h

theorem classDesignator_carries : Carries c (fun _ => classDesignator rules) true := by
  refine .phrase rfl (Meets.get_bind fun b => .ite (fun hname => ?_) fun _ => ?_)
  · exact qualifiedName_begins.pinned (atEnd_of_isAt hname)
  · refine Carries.pinned (.ite h.simpleVariable (.ite ?_ report_carries))
    exact advance_carries.bind fun _ => h.expression.bind fun _ => expect_carries

theorem objectCreation_carries : Carries c (fun _ => objectCreation rules) true := by
  refine .phrase rfl (advance_carries.bind fun _ => .get_bind fun _ => ?_)
  refine .ite (anonymousClass_carries h) ((classDesignator_carries h).bind fun _ => ?_)
  exact .get_bind fun _ => .ite (argumentList_carries h) (.pure _)

theorem matchArm_carries : Carries c (fun _ => matchArm rules) true := by
  have hconditions {c : Bool} : Carries c (fun _ => matchConditions rules) true := by
    refine .loop_closes (h.expression.bind fun _ => accept_carries.bind fun _ => .ite ?_ (.pure _))
    exact .get_bind fun _ => .pure _
  refine .phrase rfl (.bind steady_sound.acceptKeyword fun _ => .whenever hconditions.loosen ?_)
  exact fun _ _ => expect_carries.bind fun _ => h.expression

theorem matchExpression_carries : Carries c (fun _ => matchExpression rules) true := by
  refine .phrase rfl (advance_carries.bind fun _ => expect_carries.bind fun _ => ?_)
  refine h.expression.bind fun _ => expect_carries.bind fun _ => expect?_carries.bind fun _ => ?_
  refine .ite (.bind (.loop (.get_bind fun _ => .ite (.pure _) ?_)) fun _ => expect_carries) (.pure _)
  exact (matchArm_carries h).progress.bind fun _ => .ite accept_carries (.pure _)

theorem parenthesized_carries : Carries c (fun _ => parenthesized rules) true :=
  .phrase rfl (advance_carries.bind fun _ => h.expression.bind fun _ => expect_carries)

theorem nameExpression_begins : Begins c fun _ => nameExpression rules := by
  refine .get_bind fun _ => .ite (arrayCreation_carries h).begins ?_
  refine .ite (anonymousFunction_carries h).begins (.ite (arrowFunction_carries h).begins ?_)
  refine .ite (objectCreation_carries h).begins (.ite (matchExpression_carries h).begins ?_)
  exact constantName_begins

theorem primary_carries : Carries c (fun _ => primary rules) true := by
  have hmissing {b : Builder} : Meets (fun L b' => Sound c L b' ∧ b' = b) (fun _ => (do
      report (.missing .expression)
      phrase .error (pure ()) : Parser Unit)) fun _ => Sound true := by
    have herror : Carries true (fun _ => phrase .error (pure ())) false := .phrase rfl (.pure _)
    exact report_spoils.bind fun _ => of_spoiled herror.spoiled
  refine Meets.get_bind fun b => ?_
  cases hk : b.kind? with
  | none => exact hmissing
  | some kind =>
      cases kind with
      | variableName | dollar => exact h.simpleVariable.pinned
      | integerLiteral | floatingLiteral | stringLiteral | heredoc =>
          exact advance_begins.pinned (atEnd_of_kind? hk)
      | openBracket => exact (arrayCreation_carries h).pinned
      | openParen => exact (parenthesized_carries h).pinned
      | backtick => exact shellCommand_carries.pinned
      | name => exact (nameExpression_begins h).pinned (atEnd_of_kind? hk)
      | _ => exact hmissing

theorem postfixExpression_carries : Carries c (fun _ => postfixExpression rules) true :=
  .marked ((primary_carries h).bind fun _ => .loop (postfixStep_carries h))

theorem unary_carries : Carries c (fun _ => unary rules) true := by
  have hsign {kind : PhraseKind} (hkind : kind.isPlain = true) : Carries false (fun start => (do
      advance
      rules .unary
      finish kind start : Parser Unit)) true :=
    advance_carries.bind fun _ => h.unary.bind fun _ => finish_carries hkind
  refine .nested (.marked (.get_bind fun _ => .ite (hsign rfl) (.ite (hsign rfl) ?_)))
  refine .ite (hsign rfl) (.ite h.assignment ((postfixExpression_carries h).bind fun _ => ?_))
  refine accept_carries.bind fun _ => .ite (h.unary.bind fun _ => ?_) (.pure _)
  exact finish_carries rfl

end ArrayShapes.Syntax.Grammar
