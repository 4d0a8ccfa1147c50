import ArrayShapes.Proofs.Syntax.Scene.Expression
import ArrayShapes.Syntax.Grammar.Statement

/-!
What statements do is settled by what is seen, and blank text in front of a statement is placed
before the statement starts.
-/

namespace ArrayShapes.Syntax.Grammar

open ArrayShapes.Syntax.Parser Builder

variable {rules : Rules}

/-! ### Without rules -/

theorem inlineText_starts : Starts inlineText := .phrase rfl (.loopWhile .advance (isAtAny_sight · _))

theorem nullStatement_starts : Starts nullStatement := .phrase rfl .advance

theorem gotoStatement_starts : Starts gotoStatement :=
  .phrase rfl (Settled.advance.bind fun _ => Settled.advance.bind fun _ => endStatement_settled)

theorem label_starts : Starts label := .phrase rfl (Settled.advance.bind fun _ => .advance)

theorem importTokens_go_settled (n depth : Nat) : Settled fun _ => importTokens.go n depth := by
  induction n generalizing depth with
  | zero => exact fun _ => .failure
  | succ n ih =>
      have hnext (depth : Nat) : Settled fun _ => (advance >>= fun _ => importTokens.go n depth) :=
        Settled.advance.bind fun _ => ih depth
      refine .get_bind (fun b => ?_) (by simp)
      cases b.kind? with
      | none => exact .pure _
      | some k =>
          cases k with
          | semicolon | closeTag =>
              cases depth with
              | zero => exact .pure _
              | succ depth => exact hnext _
          | closeBrace =>
              cases depth with
              | zero => exact .pure _
              | succ depth => exact hnext _
          | openBrace => exact hnext _
          | _ => exact hnext _

theorem useDeclaration_starts : Starts useDeclaration := by
  refine .phrase rfl (Settled.advance.bind fun _ => .bind ?_ fun _ => endStatement_settled)
  exact .get_bind (fun _ => importTokens_go_settled _ _) (by simp)

variable (h : RulesSettled rules)
include h

/-! ### Parts of statements -/

theorem expressionsUntil_settled {close : TokenKind} :
    Settled fun _ => expressionsUntil rules close := by
  refine .loop (.get_bind (fun _ => .ite (.pure _) ?_) (by simp))
  exact h.expression.settled.bind fun _ => accept_settled

theorem condition_settled : Settled fun _ => condition rules :=
  expect_settled.bind fun _ => h.expression.settled.bind fun _ => expect_settled

theorem loopBody_settled {keyword : String} : Settled fun _ => loopBody rules keyword := by
  refine accept_settled.bind fun _ => .ite ?_ h.statement
  refine (statementList_operand h (isKeyword_sight · _)).settled.bind fun _ => ?_
  exact expectKeyword_settled.bind fun _ => endStatement_settled

/-! ### Simple statements -/

theorem expressionStatement_starts : Starts (expressionStatement rules) := by
  refine .get_bind (fun _ => .ite (.phrase rfl ?_) .pure) (by simp)
  exact h.expression.settled.bind fun _ => endStatement_settled

theorem jump_starts {kind : PhraseKind} (hkind : kind.slots? = none) : Starts (jump rules kind) := by
  refine .phrase hkind (Settled.advance.bind fun _ => .get_bind (fun _ => ?_) (by simp))
  exact .when h.expression.settled fun _ => endStatement_settled

theorem operands_starts {kind : PhraseKind} (hkind : kind.slots? = none) :
    Starts (operands rules kind) := by
  refine .phrase hkind (Settled.advance.bind fun _ => ?_)
  exact (expressionsUntil_settled h).bind fun _ => endStatement_settled

theorem throwStatement_starts : Starts (throwStatement rules) :=
  .phrase rfl (Settled.advance.bind fun _ => h.expression.settled.bind fun _ => endStatement_settled)

/-! ### Control flow -/

theorem alternativeClauses_settled {ends : List String} :
    Settled fun _ => alternativeClauses rules ends := by
  refine .loop (.get_bind (fun _ => .ite ?_ (.ite ?_ (.pure _))) (by simp))
  · refine .bind (Operand.settled (.phrase rfl ?_)) fun _ => .pure _
    refine Settled.advance.bind fun _ => (condition_settled h).bind fun _ => ?_
    exact expect_settled.bind fun _ => (statementList_operand h (isAnyKeyword_sight · _)).settled
  · refine .bind (Operand.settled (.phrase rfl ?_)) fun _ => .pure _
    refine Settled.advance.bind fun _ => expect_settled.bind fun _ => ?_
    exact (statementList_operand h (isKeyword_sight · _)).settled

theorem ifStatement_starts : Starts (ifStatement rules) := by
  refine .phrase rfl (Settled.advance.bind fun _ => (condition_settled h).bind fun _ => ?_)
  refine accept_settled.bind fun _ => .ite ?_ (h.statement.bind fun _ => ?_)
  · refine (statementList_operand h (isAnyKeyword_sight · _)).settled.bind fun _ => ?_
    refine (alternativeClauses_settled h).bind fun _ => ?_
    exact expectKeyword_settled.bind fun _ => endStatement_settled
  · refine .bind (.loopWhile (Operand.settled (.phrase rfl ?_)) fun b => by simp) fun _ =>
      .get_bind (fun _ => .ite (Operand.settled (.phrase rfl ?_)) (.pure _)) (by simp)
    · exact Settled.advance.bind fun _ => (condition_settled h).bind fun _ => h.statement
    · exact Settled.advance.bind fun _ => h.statement

theorem whileStatement_starts : Starts (whileStatement rules) :=
  .phrase rfl (Settled.advance.bind fun _ => (condition_settled h).bind fun _ => loopBody_settled h)

theorem doStatement_starts : Starts (doStatement rules) := by
  refine .phrase rfl (Settled.advance.bind fun _ => h.statement.bind fun _ => ?_)
  refine expectKeyword_settled.bind fun _ => (condition_settled h).bind fun _ => ?_
  exact endStatement_settled

theorem forStatement_starts : Starts (forStatement rules) := by
  refine .phrase rfl (Settled.advance.bind fun _ => expect_settled.bind fun _ => ?_)
  refine (expressionsUntil_settled h).bind fun _ => expect_settled.bind fun _ => ?_
  refine (expressionsUntil_settled h).bind fun _ => expect_settled.bind fun _ => ?_
  refine (expressionsUntil_settled h).bind fun _ => expect_settled.bind fun _ => ?_
  exact loopBody_settled h

theorem foreachBinding_settled : Settled fun _ => foreachBinding rules := by
  intro σ
  refine .mark_bind ((skipOptional_adds.filled (.nil _)).bind fun _ σ₁ h₁ => ?_)
  refine ((h.expression σ₁).filled h₁).bind fun _ σ₂ h₂ => .get_bind (fun b _ => by rw [isAt_sight]) ?_
  refine .ite (fun _ => (Settles.finish_filled h₂ rfl).bind fun _ σ₃ _ => ?_) fun _ => ?_
  · have hvalue : Operand (phrase .foreachValue do skipOptional .ampersand; rules .expression) :=
      .phrase_filled rfl fun _ => reference_adds h
    exact Settled.advance.bind (fun _ => hvalue.settled) σ₃
  · exact (Settles.finish_filled h₂ rfl).imp fun _ _ _ => trivial

theorem foreachStatement_starts : Starts (foreachStatement rules) := by
  have hcollection : Operand (phrase .foreachCollection (rules .expression)) :=
    .phrase_filled rfl fun _ => h.expression _
  refine .phrase rfl (Settled.advance.bind fun _ => expect_settled.bind fun _ => ?_)
  refine hcollection.settled.bind fun _ => expectKeyword_settled.bind fun _ => ?_
  refine (foreachBinding_settled h).bind fun _ => expect_settled.bind fun _ => ?_
  exact loopBody_settled h

theorem switchCase_settled {isEnd : Builder → Bool} (hend : Looks isEnd) :
    Settled fun _ => switchCase rules isEnd := by
  have hlooks : Looks fun b => b.isAnyKeyword ["case", "default"] || isEnd b := fun b => by
    simp only [isAnyKeyword_sight, hend b]
  have hlist := (statementList_operand h hlooks).settled
  refine Operand.settled (.phrase rfl (.get_bind (fun _ => Settled.advance.bind fun _ => ?_) (by simp)))
  refine .when h.expression.settled fun _ => accept_settled.bind fun _ => ?_
  exact .ite (accept_settled.bind fun _ => .when .report fun _ => hlist) hlist

theorem switchCases_settled {isEnd : Builder → Bool} (hend : Looks isEnd) :
    Settled fun _ => switchCases rules isEnd := by
  refine .loopWhile (.get_bind (fun _ => ?_) (by simp)) fun b => by rw [atEnd_sight, hend b]
  exact .ite (switchCase_settled h hend) skipToken_settled

theorem switchStatement_starts : Starts (switchStatement rules) := by
  refine .phrase rfl (Settled.advance.bind fun _ => (condition_settled h).bind fun _ => ?_)
  refine accept_settled.bind fun _ => .ite ?_ (expect_settled.bind fun _ => ?_)
  · refine (switchCases_settled h (isKeyword_sight · _)).bind fun _ => ?_
    exact expectKeyword_settled.bind fun _ => endStatement_settled
  · exact (switchCases_settled h (isAt_sight · _)).bind fun _ => expect_settled

theorem catchClause_settled : Settled fun _ => catchClause rules := by
  refine Operand.settled (.phrase rfl (Settled.advance.bind fun _ => expect_settled.bind fun _ => ?_))
  refine h.typeDeclaration.bind fun _ => skipOptional_settled.bind fun _ => ?_
  exact expect_settled.bind fun _ => (compoundStatement_operand h).settled

theorem tryStatement_starts : Starts (tryStatement rules) := by
  refine .phrase rfl (Settled.advance.bind fun _ => ?_)
  refine (compoundStatement_operand h).settled.bind fun _ => ?_
  refine .bind (.loopWhile (catchClause_settled h) fun b => by simp) fun _ => ?_
  refine .get_bind (fun _ => ?_) (by simp)
  refine .ite (Operand.settled (.phrase rfl ?_)) (.pure _)
  exact Settled.advance.bind fun _ => (compoundStatement_operand h).settled

theorem declareStatement_starts : Starts (declareStatement rules) := by
  refine .phrase rfl (Settled.advance.bind fun _ => expect_settled.bind fun _ => ?_)
  refine (expressionsUntil_settled h).bind fun _ => expect_settled.bind fun _ => ?_
  refine .get_bind (fun _ => .ite (loopBody_settled h) (accept_settled.bind fun _ => ?_)) (by simp)
  exact .ite h.statement (.pure _)

/-! ### Variables, namespaces and constants -/

theorem staticVariables_starts : Starts (staticVariables rules) := by
  refine .phrase rfl (Settled.advance.bind fun _ =>
    .bind (.loop (.mark_bind ?_)) fun _ => endStatement_settled)
  refine expect?_settled.bind fun _ => .ite (accept_settled.bind fun _ => ?_) (.pure _)
  refine .when h.expression.settled fun _ => ?_
  exact (Settled.finish rfl).bind fun _ => accept_settled

theorem namespaceDefinition_starts : Starts (namespaceDefinition rules) := by
  refine .phrase rfl (Settled.advance.bind fun _ => .get_bind (fun _ => ?_) (by simp))
  refine .when qualifiedName_operand.settled fun _ => .get_bind (fun _ => ?_) (by simp)
  exact .ite (compoundStatement_operand h).settled endStatement_settled

theorem constDeclaration_starts : Starts (constDeclaration rules) := by
  refine .phrase rfl (Settled.advance.bind fun _ => ?_)
  exact (constElements_settled h rfl).bind fun _ => endStatement_settled

/-! ### By first token -/

theorem labelOrExpression_starts : Starts (labelOrExpression rules) :=
  .get_bind (fun _ => .ite label_starts (expressionStatement_starts h)) (by simp)

theorem keywordStatement_starts : Starts (keywordStatement rules) := by
  have hif {c : Prop} [Decidable c] {p : Parser Unit} (hp : Starts p) :
      Starts (if c then p else labelOrExpression rules) :=
    .ite hp (labelOrExpression_starts h)
  have hclass {kind : PhraseKind} (hkind : kind.slots? = none) :
      Starts (classDeclaration rules kind) :=
    ⟨(classDeclaration_operand h hkind).settled, .mark_bind⟩
  have hfunction : Starts (functionDeclaration rules) :=
    ⟨(functionDeclaration_operand h).settled, .mark_bind⟩
  refine .get_bind (fun b => ?_) (by simp)
  dsimp only
  split
  · exact hif hfunction
  · exact hif (hclass rfl)
  · exact hif (hclass rfl)
  · exact hif (hclass rfl)
  · exact hif (hclass rfl)
  · exact hif (hclass rfl)
  · exact hif (hclass rfl)
  · exact hif (hclass rfl)
  · exact hif (namespaceDefinition_starts h)
  · exact useDeclaration_starts
  · exact constDeclaration_starts h
  · exact ifStatement_starts h
  · exact whileStatement_starts h
  · exact doStatement_starts h
  · exact forStatement_starts h
  · exact foreachStatement_starts h
  · exact switchStatement_starts h
  · exact jump_starts h rfl
  · exact jump_starts h rfl
  · exact jump_starts h rfl
  · exact operands_starts h rfl
  · exact operands_starts h rfl
  · exact hif (staticVariables_starts h)
  · exact tryStatement_starts h
  · exact throwStatement_starts h
  · exact hif (declareStatement_starts h)
  · exact hif gotoStatement_starts
  · exact expressionStatement_starts h
  · exact expressionStatement_starts h
  · exact expressionStatement_starts h
  · exact labelOrExpression_starts h

theorem statement_starts : Starts (statement rules) := by
  refine .nested (.get_bind (fun b => ?_) (by simp))
  split
  · exact .pure
  · exact inlineText_starts
  · exact inlineText_starts
  · exact inlineText_starts
  · exact operands_starts h rfl
  · exact ⟨(compoundStatement_operand h).settled, .mark_bind⟩
  · exact nullStatement_starts
  · exact keywordStatement_starts h
  · exact expressionStatement_starts h

end ArrayShapes.Syntax.Grammar
