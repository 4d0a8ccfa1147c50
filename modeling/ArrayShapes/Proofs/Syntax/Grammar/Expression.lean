import ArrayShapes.Proofs.Syntax.Grammar.Declaration
import ArrayShapes.Syntax.Grammar.Expression

/-!
Expressions have results wherever the rules have. Some forms go from one rule to the next without
taking a token: there it has to be known of the next rule that it works with as many tokens left.
-/

namespace ArrayShapes.Syntax.Grammar

open ArrayShapes.Syntax.Parser Builder

variable {base k : Nat} {rules : Rules}

theorem left_pos_of_operatorAhead {b : Builder} {op : Operator} (hr : Ready base b)
    (hop : operatorAhead? b = some op) : 0 < b.left := by
  refine hr.left_pos_of_ahead fun ha => ?_
  simp [operatorAhead?, isKeyword, word?, kind?, ha] at hop

theorem operatorAhead_kind {b : Builder} {op : Operator} (hop : operatorAhead? b = some op) :
    (op.kind == .error) = false := by
  unfold operatorAhead? at hop
  split at hop
  · cases hop
    rfl
  · obtain ⟨t, -, ht⟩ := Option.bind_eq_some_iff.1 hop
    cases t <;> cases ht <;> rfl

variable (h : RulesWork k rules)
include h

/-! ### From loose to tight -/

theorem expression_works (ha : ∀ {base}, Works base (k + 1) (rules .assignment)) :
    Works base (k + 1) (expression rules) := by
  refine nested_works (.mark_bind fun start _ => ha.bind fun _ => ?_)
  refine loopWhile_eats_works (Eats.advance.bind fun _ => ?_) fun _ hr =>
    hr.left_pos_of_isAnyKeyword
  exact (h .assignment).bind fun _ => Works.finish rfl

theorem ternary_works (hb : ∀ {base}, Works base (k + 1) (rules (.binary 0))) :
    Works base (k + 1) (ternary rules) := by
  refine .mark_bind fun start _ => hb.bind fun _ => ?_
  refine loopWhile_eats_works (Eats.advance.bind fun _ => ?_) fun _ hr => hr.left_pos_of_isAt
  refine .get_bind fun b _ => Works.when (fun _ => h .assignment) fun _ => ?_
  exact expect_works.bind fun _ => (h .assignment).bind fun _ => Works.finish rfl

theorem looseKeyword_eats : Eats base k (looseKeyword rules) := by
  refine .phrase rfl fun start _ => .get_bind fun b _ => Eats.advance.bind fun _ => ?_
  refine Works.when (fun _ => skipOptionalKeyword_works) fun _ => .get_bind fun b _ => ?_
  exact .ite (fun _ => h .assignment) fun _ => Works.pure _

theorem assignment_works (hb : ∀ {base}, Works base (k + 1) (rules (.binary 0))) :
    Works base (k + 1) (assignment rules) := by
  refine .mark_bind fun start _ => Works.ahead fun b hr => ?_
  split
  · exact .inl ⟨hr.left_pos_of_isAnyKeyword ‹_›, looseKeyword_eats h⟩
  · refine .inr ((ternary_works h hb).bind fun _ => Works.ahead fun b hr => ?_)
    split
    · refine .inl ⟨hr.left_pos_of_kind ‹_›, Eats.advance.bind fun _ => ?_⟩
      exact skipOptional_works.bind fun _ => (h .assignment).bind fun _ => Works.finish rfl
    · refine .inl ⟨hr.left_pos_of_kind ‹_›, Eats.advance.bind fun _ => ?_⟩
      exact (h .assignment).bind fun _ => Works.finish rfl
    · exact .inr (Works.pure _)

/-- At a loose keyword an assignment takes it, and refers to no rule before that. -/
theorem assignment_of_loose {b : Builder} (hr : Ready base b) (hb : b.left < k + 1)
    (hloose : b.isAnyKeyword looseKeywords = true) :
    (assignment rules).Ensures b fun _ b' => Built base b b' ∧ True := by
  have hflush : Built base b b.flush := .flush b
  have hready := hflush.ready hr
  have hkeyword : b.flush.isAnyKeyword looseKeywords = true := by
    rwa [isAnyKeyword, flush_word?]
  refine .bind (Q := fun _ b' => b' = b.flush) ⟨_, _, rfl, rfl⟩ ?_
  rintro start _ rfl
  refine .get_bind ?_
  rw [if_pos hkeyword]
  refine ((looseKeyword_eats h).works_at hready (hready.left_pos_of_isAnyKeyword hkeyword)
    (by rwa [flush_left])).imp fun _ _ hb' => ⟨hflush.trans hb'.1, trivial⟩

theorem binary_works {least : Nat} (hu : ∀ {base}, Works base (k + 1) (rules .unary)) :
    Works base (k + 1) (binary rules least) := by
  refine .mark_bind fun start _ => hu.bind fun _ => Works.loop (Steps.ahead fun b hr => ?_)
  split
  · split
    · exact .inr Steps.stop
    · refine .inl ⟨left_pos_of_operatorAhead hr ‹_›, Eats.advance.bind fun _ => ?_⟩
      exact (h _).bind fun _ => (Works.finish (operatorAhead_kind ‹_›)).bind fun _ => Works.pure _
  · exact .inr Steps.stop

/-! ### Postfix phrases -/

theorem simpleVariable_works : Works base (k + 1) (simpleVariable rules) := by
  refine .phrase rfl fun start _ => Works.choice accept_steps ?_ expect_works
  refine accept_works.bind fun _ => .ite (fun _ => (h .expression).bind fun _ => expect_works) ?_
  refine fun _ => .get_bind fun b _ => .ite (fun _ => h .simpleVariable) fun _ => Works.report

theorem bracedExpression_works : Works base k (bracedExpression rules) :=
  Works.advance.bind fun _ => (h .expression).bind fun _ => expect_works

theorem memberName_works : Works base k (memberName rules) := by
  refine .phrase rfl fun start _ => .get_bind fun b _ => .ite (fun _ => Works.advance) fun _ => ?_
  refine .ite (fun _ => h .simpleVariable) fun _ => ?_
  exact .ite (fun _ => bracedExpression_works h) fun _ => Works.report

theorem argument_works : Works base k (argument rules) := by
  refine .mark_bind fun start _ => .get_bind fun b _ => .ite (fun _ => ?_) fun _ => .ite ?_ ?_
  · exact Works.advance.bind fun _ => (h .expression).bind fun _ => Works.finish rfl
  · refine fun _ => Works.advance.bind fun _ => Works.advance.bind fun _ => ?_
    exact (h .expression).bind fun _ => Works.finish rfl
  · exact fun _ => h .expression

theorem arguments_works : Works base k (arguments rules) := by
  refine .phrase rfl fun start _ => Works.loop (.get_bind fun b _ => ?_)
  refine .ite (fun _ => Steps.stop) fun _ => .ite (fun _ => ?_) fun _ => ?_
  · exact Steps.bind Works.advance fun _ => Steps.stop
  · exact progress_accept_steps (argument_works h)

theorem argumentList_works : Works base k (argumentList rules) :=
  expect_works.bind fun _ => (arguments_works h).bind fun _ => expect_works

theorem argumentList_takes {b : Builder} (hr : Ready base b) (hb : b.left < k + 1)
    (hat : b.isAt .openParen = true) :
    (argumentList rules).Ensures b fun _ b' => Built base b b' ∧ b'.left < b.left := by
  refine (expect_takes hr hat).bind fun _ b' ⟨hbuilt, hlt⟩ => ?_
  have hrest : Works base k (arguments rules >>= fun _ => expect .closeParen ")") :=
    (arguments_works h).bind fun _ => expect_works
  refine (hrest b' (hbuilt.ready hr) (by omega)).imp fun _ b'' ⟨hbuilt', _⟩ => ?_
  have := hbuilt'.left_le
  exact ⟨hbuilt.trans hbuilt', by omega⟩

theorem scopedAccess_eats : Eats base k (scopedAccess rules base) := by
  refine Eats.advance.bind fun _ => .get_bind fun b _ => ?_
  refine Works.bind (.phrase rfl fun start _ => ?_) ?_
  · refine .ite (fun _ => h .simpleVariable) fun _ => .get_bind fun b _ => ?_
    exact .ite (fun _ => bracedExpression_works h) fun _ => expect_works
  · refine fun _ => .get_bind fun b _ => .ite (fun _ => ?_) fun _ => .ite ?_ ?_
    · exact (argumentList_works h).bind fun _ => Works.finish rfl
    · exact fun _ => Works.finish rfl
    · exact fun _ => Works.finish rfl

theorem subscript_eats : Eats base k (subscript rules base) := by
  refine Eats.advance.bind fun _ => .get_bind fun b _ => Works.when (fun _ => h .expression) ?_
  exact fun _ => expect_works.bind fun _ => Works.finish rfl

theorem memberAccess_eats : Eats base k (memberAccess rules base) := by
  refine Eats.advance.bind fun _ => (memberName_works h).bind fun _ => .get_bind fun b _ => ?_
  refine .ite (fun _ => ?_) fun _ => Works.finish rfl
  exact (argumentList_works h).bind fun _ => Works.finish rfl

theorem postfixStep_steps : Steps base (k + 1) (postfixStep rules base) := by
  intro b hr hb
  have hat {s : Parser Bool} {t : TokenKind} (hs : Eats base k s) (ht : b.kind? = some t) :=
    hs.steps_at hr (hr.left_pos_of_kind ht) hb
  refine .get_bind ?_
  split
  · exact hat ((subscript_eats h).bind fun _ => Works.pure _) ‹_›
  · exact hat ((memberAccess_eats h).bind fun _ => Works.pure _) ‹_›
  · exact hat ((memberAccess_eats h).bind fun _ => Works.pure _) ‹_›
  · exact hat ((scopedAccess_eats h).bind fun _ => Works.pure _) ‹_›
  · -- the parenthesis is expected, not just taken
    have hparen : b.isAt .openParen = true := beq_iff_eq.2 ‹_›
    refine (argumentList_takes h hr hb hparen).bind fun _ b' ⟨hbuilt, hlt⟩ => ?_
    have hfinish : Works base k (finish .functionCallExpression base >>= fun _ => pure true) :=
      (Works.finish rfl).bind fun _ => Works.pure _
    refine (hfinish b' (hbuilt.ready hr) (by omega)).imp fun _ b'' ⟨hbuilt', _⟩ => ?_
    have := hbuilt'.left_le
    exact ⟨hbuilt.trans hbuilt', fun _ => by omega⟩
  · exact hat (Eats.advance.bind fun _ => (Works.finish rfl).bind fun _ => Works.pure _) ‹_›
  · exact hat (Eats.advance.bind fun _ => (Works.finish rfl).bind fun _ => Works.pure _) ‹_›
  · exact Steps.stop b hr hb

/-! ### Primary expressions -/

theorem arrayElement_works : Works base k (arrayElement rules) := by
  refine .phrase rfl fun start _ => .mark_bind fun start _ => .get_bind fun b _ => ?_
  refine .ite (fun _ => ?_) fun _ => (h .expression).bind fun _ => .get_bind fun b _ => ?_
  · exact Works.advance.bind fun _ => (h .expression).bind fun _ => Works.finish rfl
  · refine .ite (fun _ => ?_) fun _ => Works.finish rfl
    refine (Works.finish rfl).bind fun _ => Works.advance.bind fun _ => .phrase rfl fun _ _ => ?_
    exact skipOptional_works.bind fun _ => h .expression

theorem arrayElements_works {close : TokenKind} : Works base k (arrayElements rules close) := by
  refine .phrase rfl fun start _ => Works.loop (.get_bind fun b _ => .ite (fun _ => Steps.stop) ?_)
  refine fun _ => Steps.choice accept_steps (Works.pure _) ?_
  exact progress_accept_steps (arrayElement_works h)

theorem arrayCreation_eats : Eats base k (arrayCreation rules) := by
  refine .phrase rfl fun start _ => Eats.choice (fun _ => accept_steps) ?_ ?_
  · exact (arrayElements_works h).bind fun _ => expect_works
  · refine Eats.advance.bind fun _ => expect_works.bind fun _ => ?_
    exact (arrayElements_works h).bind fun _ => expect_works

theorem useClause_works : Works base k (useClause rules) := by
  refine .get_bind fun b _ => Works.when (fun _ => .phrase rfl fun start _ => ?_) fun _ =>
    returnType_works h
  refine Works.advance.bind fun _ => expect_works.bind fun _ =>
    Works.bind (Works.loop (.get_bind fun b _ => ?_)) fun _ => expect_works
  refine .ite (fun _ => Steps.stop) fun _ => .mark_bind fun start _ => ?_
  refine Steps.bind skipOptional_works fun _ => Steps.choice expect?_steps ?_ Steps.stop
  exact (Works.finish rfl).bind fun _ => accept_works

theorem anonymousFunction_eats : Eats base k (anonymousFunction rules) := by
  refine .phrase rfl fun start _ => Eats.after (fun _ => skipOptionalKeyword_works) fun _ => ?_
  refine Eats.bind (.phrase rfl fun start _ => ?_) fun _ => (functionBody_works h).late
  refine Eats.advance.bind fun _ => skipOptional_works.bind fun _ => ?_
  exact (parameterList_works h).bind fun _ => useClause_works h

theorem arrowFunction_eats : Eats base k (arrowFunction rules) := by
  refine .phrase rfl fun start _ => Eats.after (fun _ => skipOptionalKeyword_works) fun _ => ?_
  refine Eats.bind (.phrase rfl fun start _ => ?_) fun _ => expect_works.bind fun _ => ?_
  · refine Eats.advance.bind fun _ => skipOptional_works.bind fun _ => ?_
    exact (parameterList_works h).bind fun _ => returnType_works h
  · exact .phrase rfl fun start _ => h .assignment

theorem anonymousClass_works : Works base k (anonymousClass rules) := by
  refine .phrase rfl fun start _ => Works.advance.bind fun _ => .get_bind fun b _ => ?_
  refine Works.when (fun _ => argumentList_works h) fun _ => ?_
  exact classHeritage_works.bind fun _ => classBody_works h

theorem classDesignator_works : Works base k (classDesignator rules) := by
  refine .phrase rfl fun start _ => .get_bind fun b _ => .ite (fun _ => qualifiedName_eats.works) ?_
  refine fun _ => .ite (fun _ => h .simpleVariable) fun _ => ?_
  refine .ite (fun _ => ?_) fun _ => Works.report
  exact Works.advance.bind fun _ => (h .expression).bind fun _ => expect_works

theorem objectCreation_eats : Eats base k (objectCreation rules) := by
  refine .phrase rfl fun start _ => Eats.advance.bind fun _ => .get_bind fun b _ => ?_
  refine .ite (fun _ => anonymousClass_works h) fun _ => (classDesignator_works h).bind fun _ => ?_
  exact .get_bind fun b _ => .ite (fun _ => argumentList_works h) fun _ => Works.pure _

theorem matchConditions_works : Works base k (matchConditions rules) := by
  refine Works.loop (Steps.bind (h .expression) fun _ => Steps.choice accept_steps ?_ Steps.stop)
  exact .get_bind fun b _ => Works.pure _

theorem matchArm_works : Works base k (matchArm rules) := by
  refine .phrase rfl fun start _ => acceptKeyword_steps.works.bind fun _ => ?_
  refine Works.when (fun _ => matchConditions_works h) fun _ => ?_
  exact expect_works.bind fun _ => h .expression

theorem matchExpression_eats : Eats base k (matchExpression rules) := by
  refine .phrase rfl fun start _ => Eats.advance.bind fun _ => expect_works.bind fun _ => ?_
  refine (h .expression).bind fun _ => expect_works.bind fun _ => expect?_steps.works.bind ?_
  refine fun _ => .ite (fun _ => Works.bind (Works.loop ?_) fun _ => expect_works) fun _ =>
    Works.pure _
  refine .get_bind fun b _ => .ite (fun _ => Steps.stop) fun _ => ?_
  exact progress_accept_steps (matchArm_works h)

theorem parenthesized_eats : Eats base k (parenthesized rules) :=
  .phrase rfl fun _ _ => Eats.advance.bind fun _ => (h .expression).bind fun _ => expect_works

omit h in
theorem shellCommand_eats : Eats base k shellCommand := by
  refine .phrase rfl fun start _ => Eats.advance.bind fun _ => Works.bind ?_ fun _ => expect_works
  refine (loopWhile_eats_works Eats.advance fun b hr hgo => ?_).late
  exact hr.left_pos_of_not_atEnd hgo

omit h in
theorem constantName_eats : Eats base k constantName := by
  refine .mark_bind fun start _ => qualifiedName_eats.bind fun _ => .get_bind fun b _ => ?_
  exact .ite (fun _ => Works.finish rfl) fun _ => Works.pure _

theorem nameExpression_eats : Eats base k (nameExpression rules) := by
  refine .get_bind fun b _ => .ite (fun _ => arrayCreation_eats h) fun _ => ?_
  refine .ite (fun _ => anonymousFunction_eats h) fun _ => ?_
  refine .ite (fun _ => arrowFunction_eats h) fun _ => ?_
  refine .ite (fun _ => objectCreation_eats h) fun _ => ?_
  exact .ite (fun _ => matchExpression_eats h) fun _ => constantName_eats

section Operand

variable (hv : ∀ {base}, Works base (k + 1) (rules .simpleVariable))
include hv

theorem primary_works : Works base (k + 1) (primary rules) := by
  refine Works.ahead fun b hr => ?_
  split
  · exact .inr hv
  · exact .inr hv
  · exact .inr Works.advance
  · exact .inr Works.advance
  · exact .inr Works.advance
  · exact .inr Works.advance
  · exact .inl ⟨hr.left_pos_of_kind ‹_›, arrayCreation_eats h⟩
  · exact .inl ⟨hr.left_pos_of_kind ‹_›, parenthesized_eats h⟩
  · exact .inl ⟨hr.left_pos_of_kind ‹_›, shellCommand_eats⟩
  · exact .inl ⟨hr.left_pos_of_kind ‹_›, nameExpression_eats h⟩
  · exact .inr missing_works

theorem postfixExpression_works : Works base (k + 1) (postfixExpression rules) :=
  .mark_bind fun _ _ => (primary_works h hv).bind fun _ => Works.loop (postfixStep_steps h)

/-- The way back from an operand to an assignment is taken at a keyword only. -/
theorem unary_works
    (hloose : ∀ {base b}, Ready base b → b.left < k + 1 → b.isAnyKeyword looseKeywords = true →
      (rules .assignment).Ensures b fun _ b' => Built base b b' ∧ True) :
    Works base (k + 1) (unary rules) := by
  refine nested_works (.mark_bind fun start _ b hr hb => .get_bind ?_)
  have hsign {kind : PhraseKind} (hkind : (kind == .error) = false) :
      Eats start k (advance >>= fun _ => rules .unary >>= fun _ => finish kind start) :=
    Eats.advance.bind fun _ => (h .unary).bind fun _ => Works.finish hkind
  split
  · exact (hsign rfl).works_at hr (hr.left_pos_of_isAtAny ‹_›) hb
  split
  · exact (hsign rfl).works_at hr (hr.left_pos_of_isAt ‹_›) hb
  split
  · exact (hsign rfl).works_at hr (hr.left_pos_of_isKeyword ‹_›) hb
  split
  · exact hloose hr hb ‹_›
  · refine (postfixExpression_works h hv).bind (fun _ => ?_) b hr hb
    refine Works.choice accept_steps ?_ (Works.pure _)
    exact (h .unary).bind fun _ => Works.finish rfl

end Operand

end ArrayShapes.Syntax.Grammar
