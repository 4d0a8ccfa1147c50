import ArrayShapes.Proofs.Syntax.Grammar.Expression
import ArrayShapes.Syntax.Grammar.Statement

/-!
Statements have results wherever the rules have. A statement that starts with a keyword takes it,
so only expression statements need more of the rules than those do.
-/

namespace ArrayShapes.Syntax.Grammar

open ArrayShapes.Syntax.Parser Builder

variable {base k : Nat} {rules : Rules}

/-! ### Statements without rules -/

theorem inlineText_works : Works base k inlineText :=
  .phrase rfl fun _ _ =>
    (loopWhile_eats_works Eats.advance fun _ hr => hr.left_pos_of_isAtAny).late

theorem nullStatement_works : Works base k nullStatement := .phrase rfl fun _ _ => Works.advance

theorem gotoStatement_eats : Eats base k gotoStatement :=
  .phrase rfl fun _ _ => Eats.advance.bind fun _ => Works.advance.bind fun _ => endStatement_works

theorem label_works : Works base k label :=
  .phrase rfl fun _ _ => Works.advance.bind fun _ => Works.advance

theorem importTokens_go_works (n depth : Nat) : Works base n (importTokens.go n depth) := by
  induction n generalizing depth with
  | zero => exact fun _ _ hb => absurd hb (Nat.not_lt_zero _)
  | succ n ih =>
      refine Works.ahead fun b hr => ?_
      split
      case h_5 | h_6 | h_7 =>
        exact .inl ⟨hr.left_pos_of_kind ‹_›, Eats.advance.bind fun _ => ih _⟩
      all_goals exact .inr (Works.pure _)

theorem importTokens_works : Works base k importTokens :=
  fun b hr _ => .get_bind (importTokens_go_works _ _ b hr (Nat.lt_succ_self _))

theorem useDeclaration_eats : Eats base k useDeclaration :=
  .phrase rfl fun _ _ => Eats.advance.bind fun _ => importTokens_works.bind fun _ =>
    endStatement_works

variable (h : RulesWork k rules)
include h

/-! ### Parts of statements -/

theorem expressionsUntil_works {close : TokenKind} :
    Works base k (expressionsUntil rules close) := by
  refine Works.loop (.get_bind fun b _ => .ite (fun _ => Steps.stop) fun _ => ?_)
  exact Steps.bind (h .expression) fun _ => accept_steps

theorem condition_works : Works base k (condition rules) :=
  expect_works.bind fun _ => (h .expression).bind fun _ => expect_works

theorem loopBody_works {endKeyword : String} : Works base k (loopBody rules endKeyword) := by
  refine accept_works.bind fun _ => .ite (fun _ => ?_) fun _ => h .statement
  exact (statementList_works h).bind fun _ => expectKeyword_works.bind fun _ => endStatement_works

/-! ### Simple statements -/

theorem jump_eats {kind : PhraseKind} (hkind : (kind == .error) = false) :
    Eats base k (jump rules kind) := by
  refine .phrase hkind fun start _ => Eats.advance.bind fun _ => .get_bind fun b _ => ?_
  exact Works.when (fun _ => h .expression) fun _ => endStatement_works

theorem operands_eats {kind : PhraseKind} (hkind : (kind == .error) = false) :
    Eats base k (operands rules kind) :=
  .phrase hkind fun _ _ => Eats.advance.bind fun _ => (expressionsUntil_works h).bind fun _ =>
    endStatement_works

theorem throwStatement_eats : Eats base k (throwStatement rules) :=
  .phrase rfl fun _ _ => Eats.advance.bind fun _ => (h .expression).bind fun _ => endStatement_works

/-! ### Control flow -/

theorem alternativeClauses_works {ends : List String} :
    Works base (k + 1) (alternativeClauses rules ends) := by
  refine Works.loop (Steps.ahead fun b hr => ?_)
  split
  · refine .inl ⟨hr.left_pos_of_isKeyword ‹_›, Eats.bind (.phrase rfl fun start _ => ?_) fun _ =>
      Works.pure _⟩
    refine Eats.advance.bind fun _ => (condition_works h).bind fun _ => ?_
    exact expect_works.bind fun _ => statementList_works h
  split
  · refine .inl ⟨hr.left_pos_of_isKeyword ‹_›, Eats.bind (.phrase rfl fun start _ => ?_) fun _ =>
      Works.pure _⟩
    exact Eats.advance.bind fun _ => expect_works.bind fun _ => statementList_works h
  · exact .inr Steps.stop

theorem ifStatement_eats : Eats base k (ifStatement rules) := by
  refine .phrase rfl fun start _ => Eats.advance.bind fun _ => (condition_works h).bind fun _ => ?_
  refine accept_works.bind fun _ => .ite (fun _ => ?_) fun _ => ?_
  · refine (statementList_works h).bind fun _ => (alternativeClauses_works h).late.bind fun _ => ?_
    exact expectKeyword_works.bind fun _ => endStatement_works
  · refine (h .statement).bind fun _ => Works.bind ?_ fun _ => .get_bind fun b _ => ?_
    · refine (loopWhile_eats_works (.phrase rfl fun start _ => ?_) fun _ hr =>
        hr.left_pos_of_isKeyword).late
      exact Eats.advance.bind fun _ => (condition_works h).bind fun _ => h .statement
    · refine .ite (fun _ => .phrase rfl fun start _ => ?_) fun _ => Works.pure _
      exact Works.advance.bind fun _ => h .statement

theorem whileStatement_eats : Eats base k (whileStatement rules) :=
  .phrase rfl fun _ _ => Eats.advance.bind fun _ => (condition_works h).bind fun _ =>
    loopBody_works h

theorem doStatement_eats : Eats base k (doStatement rules) := by
  refine .phrase rfl fun start _ => Eats.advance.bind fun _ => (h .statement).bind fun _ => ?_
  refine expectKeyword_works.bind fun _ => (condition_works h).bind fun _ => endStatement_works

theorem forStatement_eats : Eats base k (forStatement rules) := by
  refine .phrase rfl fun start _ => Eats.advance.bind fun _ => expect_works.bind fun _ => ?_
  refine (expressionsUntil_works h).bind fun _ => expect_works.bind fun _ => ?_
  refine (expressionsUntil_works h).bind fun _ => expect_works.bind fun _ => ?_
  refine (expressionsUntil_works h).bind fun _ => expect_works.bind fun _ => loopBody_works h

theorem foreachBinding_works : Works base k (foreachBinding rules) := by
  refine .mark_bind fun start _ => skipOptional_works.bind fun _ => (h .expression).bind fun _ => ?_
  refine .get_bind fun b _ => .ite (fun _ => ?_) fun _ => Works.finish rfl
  refine (Works.finish rfl).bind fun _ => Works.advance.bind fun _ => .phrase rfl fun start _ => ?_
  exact skipOptional_works.bind fun _ => h .expression

theorem foreachStatement_eats : Eats base k (foreachStatement rules) := by
  refine .phrase rfl fun start _ => Eats.advance.bind fun _ => expect_works.bind fun _ => ?_
  refine Works.bind (.phrase rfl fun start _ => h .expression) fun _ => ?_
  refine expectKeyword_works.bind fun _ => (foreachBinding_works h).bind fun _ => ?_
  exact expect_works.bind fun _ => loopBody_works h

theorem switchCase_eats {isEnd : Builder → Bool} : Eats base k (switchCase rules isEnd) := by
  refine .phrase rfl fun start _ => .get_bind fun b _ => Eats.advance.bind fun _ => ?_
  refine Works.when (fun _ => h .expression) fun _ => accept_works.bind fun _ => ?_
  have hrest : Works start k (statementList rules fun b =>
      b.isAnyKeyword ["case", "default"] || isEnd b) := statementList_works h
  refine .ite (fun _ => accept_works.bind fun _ => ?_) fun _ => hrest
  exact Works.when (fun _ => Works.report) fun _ => hrest

theorem switchCases_works {isEnd : Builder → Bool} : Works base k (switchCases rules isEnd) := by
  refine (loopWhile_eats_works (.get_bind fun b _ => ?_) fun b hr hgo => ?_).late
  · exact .ite (fun _ => switchCase_eats h) fun _ => skipToken_eats
  · exact hr.left_pos_of_not_atEnd hgo

theorem switchStatement_eats : Eats base k (switchStatement rules) := by
  refine .phrase rfl fun start _ => Eats.advance.bind fun _ => (condition_works h).bind fun _ => ?_
  refine accept_works.bind fun _ => .ite (fun _ => ?_) fun _ => ?_
  · refine (switchCases_works h).bind fun _ => ?_
    exact expectKeyword_works.bind fun _ => endStatement_works
  · exact expect_works.bind fun _ => (switchCases_works h).bind fun _ => expect_works

theorem catchClause_eats : Eats base k (catchClause rules) := by
  refine .phrase rfl fun start _ => Eats.advance.bind fun _ => expect_works.bind fun _ => ?_
  refine (h .typeDeclaration).bind fun _ => skipOptional_works.bind fun _ => ?_
  exact expect_works.bind fun _ => (compoundStatement_works h).late

theorem tryStatement_eats : Eats base k (tryStatement rules) := by
  refine .phrase rfl fun start _ => Eats.advance.bind fun _ => ?_
  refine (compoundStatement_works h).late.bind fun _ => Works.bind ?_ fun _ => .get_bind ?_
  · exact (loopWhile_eats_works (catchClause_eats h) fun _ hr => hr.left_pos_of_isKeyword).late
  · refine fun b _ => .ite (fun _ => .phrase rfl fun start _ => ?_) fun _ => Works.pure _
    exact Works.advance.bind fun _ => (compoundStatement_works h).late

theorem declareStatement_eats : Eats base k (declareStatement rules) := by
  refine .phrase rfl fun start _ => Eats.advance.bind fun _ => expect_works.bind fun _ => ?_
  refine (expressionsUntil_works h).bind fun _ => expect_works.bind fun _ => .get_bind fun b _ => ?_
  refine .ite (fun _ => loopBody_works h) fun _ => accept_works.bind fun _ => ?_
  exact .ite (fun _ => h .statement) fun _ => Works.pure _

/-! ### Variables, namespaces and constants -/

theorem staticVariables_eats : Eats base k (staticVariables rules) := by
  refine .phrase rfl fun start _ => Eats.advance.bind fun _ =>
    Works.bind (Works.loop (.mark_bind fun start _ => ?_)) fun _ => endStatement_works
  refine Steps.choice expect?_steps (accept_works.bind fun _ => ?_) Steps.stop
  refine Works.when (fun _ => h .expression) fun _ => ?_
  exact (Works.finish rfl).bind fun _ => accept_works

theorem namespaceDefinition_eats : Eats base k (namespaceDefinition rules) := by
  refine .phrase rfl fun start _ => Eats.advance.bind fun _ => .get_bind fun b _ => ?_
  refine Works.when (fun _ => qualifiedName_eats.works) fun _ => .get_bind fun b _ => ?_
  exact .ite (fun _ => (compoundStatement_works h).late) fun _ => endStatement_works

theorem constDeclaration_eats : Eats base k (constDeclaration rules) := by
  refine .phrase rfl fun start _ => Eats.advance.bind fun _ => ?_
  exact (constElements_works h rfl).bind fun _ => endStatement_works

/-! ### By first token -/

section Start

variable (he : ∀ {base}, Works base (k + 1) (rules .expression))
include he

omit h in
theorem expressionStatement_works : Works base (k + 1) (expressionStatement rules) := by
  refine .get_bind fun b _ => .ite (fun _ => .phrase rfl fun start _ => ?_) fun _ => Works.pure _
  exact he.bind fun _ => endStatement_works

omit h in
theorem labelOrExpression_works : Works base (k + 1) (labelOrExpression rules) :=
  .get_bind fun _ _ => .ite (fun _ => label_works) fun _ => expressionStatement_works he

theorem keywordStatement_works {b : Builder} (hr : Ready base b) (hpos : 0 < b.left)
    (hb : b.left < k + 1) :
    (keywordStatement rules).Ensures b fun _ b' => Built base b b' ∧ True := by
  have hat {p : Parser Unit} (hp : Eats base k p) := hp.works_at hr hpos hb
  have hif {c : Prop} [Decidable c] {p : Parser Unit} (hp : Eats base k p) :
      (if c then p else labelOrExpression rules).Ensures b fun _ b' => Built base b b' ∧ True := by
    split
    · exact hat hp
    · exact labelOrExpression_works he b hr hb
  refine .get_bind ?_
  dsimp only
  split
  · exact hif (functionDeclaration_eats h)
  · exact hif (classDeclaration_eats h rfl)
  · exact hif (classDeclaration_eats h rfl)
  · exact hif (classDeclaration_eats h rfl)
  · exact hif (classDeclaration_eats h rfl)
  · exact hif (classDeclaration_eats h rfl)
  · exact hif (classDeclaration_eats h rfl)
  · exact hif (classDeclaration_eats h rfl)
  · exact hif (namespaceDefinition_eats h)
  · exact hat useDeclaration_eats
  · exact hat (constDeclaration_eats h)
  · exact hat (ifStatement_eats h)
  · exact hat (whileStatement_eats h)
  · exact hat (doStatement_eats h)
  · exact hat (forStatement_eats h)
  · exact hat (foreachStatement_eats h)
  · exact hat (switchStatement_eats h)
  · exact hat (jump_eats h rfl)
  · exact hat (jump_eats h rfl)
  · exact hat (jump_eats h rfl)
  · exact hat (operands_eats h rfl)
  · exact hat (operands_eats h rfl)
  · exact hif (staticVariables_eats h)
  · exact hat (tryStatement_eats h)
  · exact hat (throwStatement_eats h)
  · exact hif (declareStatement_eats h)
  · exact hif gotoStatement_eats
  · exact expressionStatement_works he b hr hb
  · exact expressionStatement_works he b hr hb
  · exact expressionStatement_works he b hr hb
  · exact labelOrExpression_works he b hr hb

theorem statement_works : Works base (k + 1) (statement rules) := by
  refine nested_works fun b hr hb => .get_bind ?_
  split
  · exact Works.pure _ b hr hb
  · exact inlineText_works b hr hb
  · exact inlineText_works b hr hb
  · exact inlineText_works b hr hb
  · exact (operands_eats h rfl).works_at hr (hr.left_pos_of_kind ‹_›) hb
  · exact compoundStatement_works h b hr hb
  · exact nullStatement_works b hr hb
  · exact keywordStatement_works h he hr (hr.left_pos_of_kind ‹_›) hb
  · exact expressionStatement_works he b hr hb

end Start

end ArrayShapes.Syntax.Grammar
