import ArrayShapes.Proofs.Syntax.Settles
import ArrayShapes.Syntax.Grammar.Declaration

/-!
What blocks, functions and classes do is settled by what is seen, if the rules are so.
-/

namespace ArrayShapes.Syntax.Grammar

open ArrayShapes.Syntax.Parser Builder

/-- What is seen settles what the rules do. Rules for expressions leave one operand each, and
statements leave no blank text in front of them behind. -/
structure RulesSettled (rules : Rules) : Prop where
  expression : Operand (rules .expression)
  assignment : Operand (rules .assignment)
  binary : ∀ least, Operand (rules (.binary least))
  unary : Operand (rules .unary)
  simpleVariable : Operand (rules .simpleVariable)
  typeDeclaration : Settled fun _ => rules .typeDeclaration
  statement : Settled fun _ => rules .statement
  statement_waits : Waits (rules .statement)

variable {rules : Rules}

/-! ### Looking ahead -/

@[simp]
theorem isExpressionEnd_sight (b : Builder) : isExpressionEnd b.sight = isExpressionEnd b := by
  simp [isExpressionEnd]

@[simp]
theorem isVariableStart_sight (b : Builder) : isVariableStart b.sight = isVariableStart b := by
  simp [isVariableStart]

@[simp]
theorem joinsType_sight (b : Builder) : joinsType b.sight = joinsType b := by
  simp [joinsType]

/-! ### Names and braces -/

theorem qualifiedName_operand : Operand qualifiedName := .phrase rfl .advance

theorem nameList_settled : Settled fun _ => nameList := by
  refine .loop (.get_bind (fun _ => .ite ?_ (.pure _)) (by simp))
  exact qualifiedName_operand.settled.bind fun _ => accept_settled

theorem balancedBraces_go_settled (n depth : Nat) : Settled fun _ => balancedBraces.go n depth := by
  induction n generalizing depth with
  | zero => exact fun _ => .failure
  | succ n ih =>
      refine .get_bind (fun b => ?_) (by simp)
      cases b.kind? with
      | none => exact .pure _
      | some k =>
          cases k with
          | openBrace => exact Settled.advance.bind fun _ => ih _
          | closeBrace => exact Settled.advance.bind fun _ => .ite (ih _) (.pure _)
          | _ => exact Settled.advance.bind fun _ => ih _

theorem balancedBraces_settled : Settled fun _ => balancedBraces :=
  .get_bind (fun _ => balancedBraces_go_settled _ _) (by simp)

theorem skipKeywords_settled (ws : List String) :
    Settled fun _ => loopWhile (·.isAnyKeyword ws) advance :=
  .loopWhile .advance (isAnyKeyword_sight · _)

/-! ### Blocks -/

/-- A list of what `p` reads; what it does not take is an error. -/
theorem list_operand {kind : PhraseKind} {go : Builder → Bool} {p : Parser Unit} {q : Problem}
    (hkind : kind.isList = true) (hgo : Looks go) (hp : Settled fun _ => p) (hwaits : Waits p) :
    Operand (listPhrase kind (loopWhile go
      (progress p >>= fun moved => if (!moved) = true then skipToken q else pure ()))) := by
  refine .listPhrase hkind hgo ?_ (hwaits.progress_or_skip q)
  exact hp.progress.bind fun _ => .ite skipToken_settled (.pure _)

variable (h : RulesSettled rules)
include h

theorem statementList_operand {isEnd : Builder → Bool} (hend : Looks isEnd) :
    Operand (statementList rules isEnd) := by
  refine list_operand rfl (fun b => ?_) h.statement h.statement_waits
  rw [atEnd_sight, hend b]

theorem block_operand {kind : PhraseKind} (hkind : kind.slots? = none) :
    Operand (block rules kind) := by
  refine .phrase hkind (expect?_settled.bind fun _ => .ite ?_ (.pure _))
  exact (statementList_operand h (isAt_sight · _)).settled.bind fun _ => expect_settled

theorem compoundStatement_operand : Operand (compoundStatement rules) := block_operand h rfl

theorem functionBody_operand : Operand (functionBody rules) := block_operand h rfl

/-! ### Functions -/

theorem typeMember_settled : Settled fun _ => typeMember rules := by
  refine accept_settled.bind fun _ => .ite ?_ (.get_bind (fun _ => .ite ?_ (.pure _)) (by simp))
  · exact h.typeDeclaration.bind fun _ => expect_settled.bind fun _ => .pure _
  · exact qualifiedName_operand.settled.bind fun _ => .pure _

theorem typeDeclaration_settled : Settled fun _ => typeDeclaration rules := by
  refine .mark_bind (.bind (.progress (.loop ?_)) fun _ => .ite (.finish rfl) (.pure _))
  refine skipOptional_settled.bind fun _ => (typeMember_settled h).bind fun member => ?_
  exact .get_bind (fun b => .ite (Settled.advance.bind fun _ => .pure _) (.pure _)) (by simp)

theorem returnType_settled : Settled fun _ => returnType rules := by
  refine .get_bind (fun _ => .ite (Operand.settled (.phrase rfl ?_)) (.pure _)) (by simp)
  exact Settled.advance.bind fun _ => h.typeDeclaration

theorem parameter_operand : Operand (parameter rules) := by
  refine .phrase rfl ((skipKeywords_settled _).bind fun _ => .get_bind (fun _ => ?_) (by simp))
  refine .when h.typeDeclaration fun _ => skipOptional_settled.bind fun _ => ?_
  refine skipOptional_settled.bind fun _ => accept_settled.bind fun _ => ?_
  refine .when .report fun _ => accept_settled.bind fun _ => ?_
  exact .ite h.expression.settled (.pure _)

theorem parameterList_settled : Settled fun _ => parameterList rules := by
  refine expect_settled.bind fun _ => .bind (Operand.settled (.phrase rfl ?_)) fun _ =>
    expect_settled
  refine .loop (.get_bind (fun _ => .ite ?_ (.pure _)) (by simp))
  exact (parameter_operand h).settled.progress.bind fun _ => .ite accept_settled (.pure _)

theorem namedHeader_operand {kind : PhraseKind} (hkind : kind.slots? = none) :
    Operand (namedHeader rules kind) := by
  refine .phrase hkind (Settled.advance.bind fun _ => skipOptional_settled.bind fun _ => ?_)
  refine expect_settled.bind fun _ => (parameterList_settled h).bind fun _ => ?_
  exact returnType_settled h

theorem functionDeclaration_operand : Operand (functionDeclaration rules) :=
  .phrase rfl ((namedHeader_operand h rfl).settled.bind fun _ => (functionBody_operand h).settled)

theorem constElements_settled {kind : PhraseKind} (hkind : kind.slots? = none) :
    Settled fun _ => constElements rules kind := by
  refine .loop (.mark_bind (expect?_settled.bind fun _ => .ite ?_ (.pure _)))
  refine expect_settled.bind fun _ => h.expression.settled.bind fun _ => ?_
  exact (Settled.finish hkind).bind fun _ => accept_settled

/-! ### Classes -/

omit h in
theorem heritageClause_settled {keyword : String} {kind : PhraseKind} (hkind : kind.slots? = none) :
    Settled fun _ => heritageClause keyword kind := by
  refine .get_bind (fun _ => .ite (Operand.settled (.phrase hkind ?_)) (.pure _)) (by simp)
  exact Settled.advance.bind fun _ => nameList_settled

omit h in
theorem classHeritage_settled : Settled fun _ => classHeritage :=
  (heritageClause_settled rfl).bind fun _ => heritageClause_settled rfl

theorem method_settled : Settled fun _ => method rules := by
  refine (namedHeader_operand h rfl).settled.bind fun _ => Operand.settled (.phrase rfl ?_)
  exact .get_bind (fun _ => .ite (compoundStatement_operand h).settled endStatement_settled) (by simp)

theorem properties_settled : Settled fun _ => properties rules := by
  refine .get_bind (fun _ => .when h.typeDeclaration fun _ => .bind (.loop ?_) fun _ => ?_) (by simp)
  · refine .mark_bind (expect?_settled.bind fun _ => .ite (accept_settled.bind fun _ => ?_) (.pure _))
    refine .when h.expression.settled fun _ => .get_bind (fun _ => ?_) (by simp)
    refine .when balancedBraces_settled fun _ => ?_
    exact (Settled.finish rfl).bind fun _ => accept_settled
  · exact .get_bind (fun _ => .ite endStatement_settled (.pure _)) (by simp)

omit h in
theorem traitUse_operand : Operand traitUse := by
  refine .phrase rfl (Settled.advance.bind fun _ => nameList_settled.bind fun _ => ?_)
  exact .get_bind (fun _ => .ite balancedBraces_settled endStatement_settled) (by simp)

theorem enumCase_operand : Operand (enumCase rules) := by
  refine .phrase rfl (Settled.advance.bind fun _ => expect_settled.bind fun _ => ?_)
  exact accept_settled.bind fun _ => .when h.expression.settled fun _ => endStatement_settled

theorem classConst_settled : Settled fun _ => classConst rules := by
  refine Settled.advance.bind fun _ => ?_
  refine .get_bind (fun _ => .when h.typeDeclaration fun _ => ?_) (by simp)
  exact (constElements_settled h rfl).bind fun _ => endStatement_settled

theorem classMember_settled : Settled fun _ => classMember rules := by
  refine .mark_bind (.get_bind (fun _ => .ite traitUse_operand.settled ?_) (by simp))
  refine .ite (enumCase_operand h).settled ?_
  refine .bind (skipKeywords_settled _).progress fun _ => .when (.finish rfl) fun _ => ?_
  refine .get_bind (fun _ => .ite ((method_settled h).bind fun _ => .finish rfl) ?_) (by simp)
  refine .ite ((classConst_settled h).bind fun _ => .finish rfl) ?_
  exact .ite ((properties_settled h).bind fun _ => .finish rfl) (.pure _)

theorem classBody_operand : Operand (classBody rules) := by
  refine .phrase rfl (expect?_settled.bind fun _ => .ite ?_ (.pure _))
  refine .bind (Operand.settled ?_) fun _ => expect_settled
  refine list_operand rfl (fun b => ?_) (classMember_settled h) .mark_bind
  rw [atEnd_sight, isAt_sight]

theorem classDeclaration_operand {kind : PhraseKind} (hkind : kind.slots? = none) :
    Operand (classDeclaration rules kind) := by
  refine .phrase hkind (.bind (Operand.settled (.phrase rfl ?_)) fun _ =>
    (classBody_operand h).settled)
  refine (skipKeywords_settled _).bind fun _ => Settled.advance.bind fun _ => ?_
  refine expect_settled.bind fun _ => .ite ?_ classHeritage_settled
  exact accept_settled.bind fun _ => .when h.typeDeclaration fun _ => classHeritage_settled

end ArrayShapes.Syntax.Grammar
