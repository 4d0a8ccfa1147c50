import ArrayShapes.Proofs.Syntax.Judgment
import ArrayShapes.Syntax.Grammar.Declaration

/-!
Blocks, functions and classes have results wherever the rules have.
-/

namespace ArrayShapes.Syntax.Grammar

open ArrayShapes.Syntax.Parser Builder

/-- With fewer than `k` tokens left, every rule has a result. -/
def RulesWork (k : Nat) (rules : Rules) : Prop := ∀ rule {base}, Works base k (rules rule)

variable {base k : Nat} {rules : Rules}

/-! ### Names and braces -/

theorem qualifiedName_eats : Eats base k qualifiedName := .phrase rfl fun _ _ => Eats.advance

theorem nameList_works : Works base k nameList := by
  refine Works.loop (.get_bind fun b _ => .ite (fun _ => ?_) fun _ => Steps.stop)
  exact Steps.bind qualifiedName_eats.works fun _ => accept_steps

theorem balancedBraces_go_works (n depth : Nat) : Works base n (balancedBraces.go n depth) := by
  induction n generalizing depth with
  | zero => exact fun _ _ hb => absurd hb (Nat.not_lt_zero _)
  | succ n ih =>
      refine Works.ahead fun b hr => ?_
      split
      · exact .inr (Works.pure _)
      · exact .inl ⟨hr.left_pos_of_kind ‹_›, Eats.advance.bind fun _ => ih _⟩
      · refine .inl ⟨hr.left_pos_of_kind ‹_›, Eats.advance.bind fun _ => ?_⟩
        exact .ite (fun _ => ih _) fun _ => Works.pure _
      · exact .inl ⟨hr.left_pos_of_kind ‹_›, Eats.advance.bind fun _ => ih _⟩

theorem balancedBraces_works : Works base k balancedBraces :=
  fun b hr _ => .get_bind (balancedBraces_go_works _ _ b hr (Nat.lt_succ_self _))

theorem skipKeywords_works (ws : List String) :
    Works base k (loopWhile (·.isAnyKeyword ws) advance) :=
  (loopWhile_eats_works Eats.advance fun _ hr => hr.left_pos_of_isAnyKeyword).late

theorem left_pos_of_joinsType {b : Builder} (hr : Ready base b) (hb : joinsType b = true) :
    0 < b.left := by
  rcases Bool.or_eq_true_iff.1 hb with hbar | hamp
  · exact hr.left_pos_of_isAt hbar
  · exact hr.left_pos_of_isAt (Bool.and_eq_true_iff.1 hamp).1

/-! ### Blocks -/

variable (h : RulesWork k rules)
include h

theorem statementList_works {isEnd : Builder → Bool} :
    Works base k (statementList rules isEnd) := by
  refine .listPhrase rfl fun start _ => ?_
  refine Works.loopWhile (progress_or_skip_takes (h .statement)) fun b hr hgo => ?_
  exact hr.left_pos_of_not_atEnd hgo

theorem block_works {kind : PhraseKind} (hkind : (kind == .error) = false) :
    Works base (k + 1) (block rules kind) := by
  refine .phrase hkind fun start _ => Works.choice expect?_steps ?_ (Works.pure _)
  exact (statementList_works h).bind fun _ => expect_works

theorem compoundStatement_works : Works base (k + 1) (compoundStatement rules) :=
  block_works h rfl

theorem functionBody_works : Works base (k + 1) (functionBody rules) := block_works h rfl

/-! ### Functions -/

theorem typeMember_works : Works base (k + 1) (typeMember rules) := by
  refine Works.choice accept_steps ?_ (.get_bind fun b _ => .ite (fun _ => ?_) fun _ => ?_)
  · exact (h .typeDeclaration).bind fun _ => expect_works.bind fun _ => Works.pure _
  · exact qualifiedName_eats.works.bind fun _ => Works.pure _
  · exact Works.pure _

theorem typeDeclaration_works : Works base (k + 1) (typeDeclaration rules) := by
  refine .mark_bind fun start _ => Works.bind (Works.progress (Works.loop ?_)) fun found =>
    .ite (fun _ => Works.finish rfl) fun _ => Works.pure _
  refine Steps.bind skipOptional_works fun _ => Steps.bind (typeMember_works h) fun member => ?_
  refine Steps.ahead fun b hr => ?_
  split
  · have hjoins := (Bool.and_eq_true_iff.1 ‹_›).2
    exact .inl ⟨left_pos_of_joinsType hr hjoins, Eats.advance.bind fun _ => Works.pure _⟩
  · exact .inr Steps.stop

theorem returnType_works : Works base k (returnType rules) := by
  refine .get_bind fun b _ => .ite (fun _ => ?_) fun _ => Works.pure _
  exact .phrase rfl fun _ _ => Works.advance.bind fun _ => h .typeDeclaration

theorem parameter_works : Works base k (parameter rules) := by
  refine .phrase rfl fun start _ => ?_
  refine Works.bind (skipKeywords_works _) fun _ => .get_bind fun b _ => ?_
  refine Works.when (fun _ => h .typeDeclaration) fun _ => ?_
  refine skipOptional_works.bind fun _ => skipOptional_works.bind fun _ => ?_
  refine accept_works.bind fun _ => Works.when (fun _ => Works.report) fun _ => ?_
  exact accept_works.bind fun _ => .ite (fun _ => h .expression) fun _ => Works.pure _

theorem parameterList_works : Works base k (parameterList rules) := by
  refine expect_works.bind fun _ => Works.bind (.phrase rfl fun start _ => Works.loop ?_) fun _ =>
    expect_works
  refine .get_bind fun b _ => .ite (fun _ => ?_) fun _ => Steps.stop
  exact progress_accept_steps (parameter_works h)

theorem namedHeader_eats {kind : PhraseKind} (hkind : (kind == .error) = false) :
    Eats base k (namedHeader rules kind) := by
  refine .phrase hkind fun start _ => Eats.advance.bind fun _ => ?_
  refine skipOptional_works.bind fun _ => expect_works.bind fun _ => ?_
  exact (parameterList_works h).bind fun _ => returnType_works h

theorem functionDeclaration_eats : Eats base k (functionDeclaration rules) :=
  .phrase rfl fun _ _ => (namedHeader_eats h rfl).bind fun _ => (functionBody_works h).late

theorem constElements_works {kind : PhraseKind} (hkind : (kind == .error) = false) :
    Works base k (constElements rules kind) := by
  refine Works.loop (.mark_bind fun start _ => Steps.choice expect?_steps ?_ Steps.stop)
  refine expect_works.bind fun _ => (h .expression).bind fun _ => ?_
  exact (Works.finish hkind).bind fun _ => accept_works

/-! ### Classes -/

omit h in
theorem heritageClause_works {keyword : String} {kind : PhraseKind}
    (hkind : (kind == .error) = false) : Works base k (heritageClause keyword kind) := by
  refine .get_bind fun b _ => .ite (fun _ => ?_) fun _ => Works.pure _
  exact .phrase hkind fun _ _ => Works.advance.bind fun _ => nameList_works

omit h in
theorem classHeritage_works : Works base k classHeritage :=
  (heritageClause_works rfl).bind fun _ => heritageClause_works rfl

theorem method_works : Works base k (method rules) := by
  refine (namedHeader_eats h rfl).works.bind fun _ => .phrase rfl fun start _ => ?_
  exact .get_bind fun b _ => .ite (fun _ => (compoundStatement_works h).late) fun _ =>
    endStatement_works

theorem properties_works : Works base k (properties rules) := by
  refine .get_bind fun b _ => Works.when (fun _ => h .typeDeclaration) fun _ => ?_
  refine Works.bind (Works.loop (.mark_bind fun start _ => ?_)) fun _ => ?_
  · refine Steps.choice expect?_steps (accept_works.bind fun _ => ?_) Steps.stop
    refine Works.when (fun _ => h .expression) fun _ => .get_bind fun b _ => ?_
    refine Works.when (fun _ => balancedBraces_works) fun _ => ?_
    exact (Works.finish rfl).bind fun _ => accept_works
  · exact .get_bind fun b _ => .ite (fun _ => endStatement_works) fun _ => Works.pure _

omit h in
theorem traitUse_works : Works base k traitUse := by
  refine .phrase rfl fun start _ => Works.advance.bind fun _ => nameList_works.bind fun _ => ?_
  exact .get_bind fun b _ => .ite (fun _ => balancedBraces_works) fun _ => endStatement_works

theorem enumCase_works : Works base k (enumCase rules) := by
  refine .phrase rfl fun start _ => Works.advance.bind fun _ => expect_works.bind fun _ => ?_
  exact accept_works.bind fun _ => Works.when (fun _ => h .expression) fun _ => endStatement_works

theorem classConst_works : Works base k (classConst rules) := by
  refine Works.advance.bind fun _ => .get_bind fun b _ => ?_
  refine Works.when (fun _ => h .typeDeclaration) fun _ => ?_
  exact (constElements_works h rfl).bind fun _ => endStatement_works

theorem classMember_works : Works base k (classMember rules) := by
  refine .mark_bind fun start _ => .get_bind fun b _ => ?_
  refine .ite (fun _ => traitUse_works) fun _ => .ite (fun _ => enumCase_works h) fun _ => ?_
  refine Works.bind (Works.progress (skipKeywords_works _)) fun modified => ?_
  refine Works.when (fun _ => Works.finish rfl) fun _ => .get_bind fun b _ => ?_
  refine .ite (fun _ => (method_works h).bind fun _ => Works.finish rfl) fun _ => ?_
  refine .ite (fun _ => (classConst_works h).bind fun _ => Works.finish rfl) fun _ => ?_
  exact .ite (fun _ => (properties_works h).bind fun _ => Works.finish rfl) fun _ => Works.pure _

theorem classBody_works : Works base k (classBody rules) := by
  refine .phrase rfl fun start _ => expect?_steps.works.bind fun _ =>
    .ite (fun _ => ?_) fun _ => Works.pure _
  refine Works.bind (.listPhrase rfl fun start _ => ?_) fun _ => expect_works
  refine Works.loopWhile (progress_or_skip_takes (classMember_works h)) fun b hr hgo => ?_
  exact hr.left_pos_of_not_atEnd hgo

theorem classDeclaration_eats {kind : PhraseKind} (hkind : (kind == .error) = false) :
    Eats base k (classDeclaration rules kind) := by
  refine .phrase hkind fun start _ => Eats.bind (.phrase rfl fun start _ => ?_) fun _ =>
    classBody_works h
  refine Eats.after (fun _ => skipKeywords_works _) fun _ => Eats.advance.bind fun _ => ?_
  refine expect_works.bind fun _ => ?_
  split
  · exact accept_works.bind fun _ => Works.when (fun _ => h .typeDeclaration) fun _ =>
      classHeritage_works
  · exact classHeritage_works

end ArrayShapes.Syntax.Grammar
