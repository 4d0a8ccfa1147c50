import Mathlib.Data.List.Basic
import ArrayShapes.Proofs.Syntax.Contract
import ArrayShapes.Proofs.Syntax.Operands

/-!
The discipline of the stack. A phrase is finished at a mark that is not above the stack, the grammar
goes up only from where it has gone down, and the token that is taken is the next one of the source
that is not blank. Steps that would do otherwise have no result, so a result says that there were
none. Every parser puts nodes on top of those that it finds and comes back at the depth where it
started.
-/

namespace ArrayShapes.Syntax

open ArrayShapes.Syntax.Parser

/-! ### Steps without a result -/

namespace Parser

variable {b : Builder}

theorem modifyIf_eq_none_iff {ok : Builder → Bool} {f : Builder → Builder} :
    modifyIf ok f b = none ↔ ok b = false := by
  cases hok : ok b <;> simp [modifyIf, hok]

theorem finish_eq_none_iff {kind : PhraseKind} {mark : Nat} :
    finish kind mark b = none ↔ b.pending.size < mark := by
  rw [finish, modifyIf_eq_none_iff, decide_eq_false_iff_not, Nat.not_le]

theorem descend_eq_none_iff : descend b = none ↔ maxDepth ≤ b.depth := by
  rw [descend, modifyIf_eq_none_iff, decide_eq_false_iff_not, Nat.not_lt]

theorem ascend_eq_none_iff : ascend b = none ↔ b.depth = 0 := by
  rw [ascend, modifyIf_eq_none_iff, decide_eq_false_iff_not, Nat.not_lt, Nat.le_zero]

end Parser

/-! ### In step with the tokens -/

/-- Among lexemes, only the tokens that they are made for are not blank. -/
theorem Lexeme.filter_flatMap_tokens {ls : List Lexeme} (h : ∀ l ∈ ls, l.Tidy) :
    (ls.flatMap tokens).filter (!·.isTrivia) = ls.map token := by
  induction ls with
  | nil => rfl
  | cons l ls ih =>
      have hl := h l List.mem_cons_self
      have hblank : l.blank.filter (!·.isTrivia) = [] :=
        List.filter_eq_nil_iff.2 fun t ht => by simp [hl.blank t ht]
      have hrest := ih fun l' hl' => h l' (List.mem_cons_of_mem l hl')
      simp [tokens, List.filter_append, hblank, hl.token, hrest]

namespace Builder

variable {base : Nat} {tokens : List Token} {found : List Notice} {b b' : Builder}

/-- The tokens that are placed. -/
def placed (b : Builder) : List Token := Tree.tokensList b.pending.toList

/-- Which of `tokens` comes next, when blank text is not counted and the last `b.left` of the others
are to be taken. -/
def current? (tokens : List Token) (b : Builder) : Option Nat :=
  let significant := tokens.findIdxs (!·.isTrivia)
  significant[significant.length - b.left]?

/-- The builder has placed the first of `tokens`, and has the others to go. -/
structure InStep (tokens : List Token) (b : Builder) : Prop where
  tidy : b.Tidy
  lossless : b.Lossless tokens
  left_eq : b.left = b.ahead.length

theorem inStep_ofTokens (tokens : List Token) (sourceEnd : Nat) :
    InStep tokens (ofTokens tokens sourceEnd) :=
  ⟨tidy_ofTokens tokens sourceEnd, lossless_ofTokens tokens sourceEnd, rfl⟩

theorem Move.inStep (h : Move b b') (hb : InStep tokens b) : InStep tokens b' :=
  ⟨h.tidy hb.tidy, h.lossless hb.lossless, h.left_eq hb.left_eq⟩

theorem findIdxs_blank {ts : List Token} (hts : ∀ t ∈ ts, t.isTrivia = true) (n : Nat) :
    ts.findIdxs (!·.isTrivia) n = [] :=
  List.findIdxs_eq_nil_iff.2 fun t ht => by simp [hts t ht]

namespace InStep

variable (h : InStep tokens b)
include h

theorem tokens_eq : tokens = b.placed ++ b.unplaced := h.lossless.tokens_eq.symm

theorem countP_unplaced : b.unplaced.countP (!·.isTrivia) = b.left := by
  have htrailing : b.trailing.filter (!·.isTrivia) = [] :=
    List.filter_eq_nil_iff.2 fun t ht => by simp [h.tidy.trailing t ht]
  rw [List.countP_eq_length_filter, unplaced, List.filter_append,
    Lexeme.filter_flatMap_tokens h.tidy.ahead, htrailing, List.append_nil, List.length_map,
    h.left_eq]

/-- Only blank text stands between what is placed and the next token. -/
theorem current?_eq :
    b.current? tokens = b.ahead.head?.map fun l => b.placed.length + l.blank.length := by
  have hindex : (tokens.findIdxs (!·.isTrivia)).length - b.left =
      (b.placed.findIdxs (!·.isTrivia)).length := by
    rw [h.tokens_eq, List.length_findIdxs, List.countP_append, h.countP_unplaced,
      List.length_findIdxs, Nat.add_sub_cancel]
  rw [current?, hindex, h.tokens_eq, List.findIdxs_append,
    List.getElem?_append_right (Nat.le_refl _), Nat.sub_self]
  cases hb : b.ahead with
  | nil =>
      rw [unplaced, hb, List.flatMap_nil, List.nil_append, findIdxs_blank h.tidy.trailing]
      rfl
  | cons l rest =>
      have hl := h.tidy.ahead l (by simp [hb])
      rw [unplaced, hb, List.flatMap_cons, Lexeme.tokens, List.append_assoc, List.append_assoc,
        List.findIdxs_append, findIdxs_blank hl.blank]
      simp [hl.token]

/-- The next token is the one that the builder sees, and to take it is to place all tokens up to
it. -/
theorem advance_current {i : Nat} (hi : b.current? tokens = some i) :
    b.placed.length ≤ i ∧ (∀ t ∈ (tokens.take i).drop b.placed.length, t.isTrivia = true) ∧
      tokens[i]? = b.ahead.head?.map Lexeme.token ∧ b.advance.placed = tokens.take (i + 1) ∧
      b.advance.pending.toList =
        b.pending.toList ++ leaves b.made ((tokens.take (i + 1)).drop b.placed.length) := by
  cases hb : b.ahead with
  | nil => simp [h.current?_eq, hb] at hi
  | cons l rest =>
      have hl := h.tidy.ahead l (by simp [hb])
      obtain rfl : b.placed.length + l.blank.length = i := by simpa [h.current?_eq, hb] using hi
      have htokens : tokens =
          (b.placed ++ l.blank) ++ l.token :: (rest.flatMap Lexeme.tokens ++ b.trailing) := by
        rw [h.tokens_eq, unplaced, hb]
        simp [Lexeme.tokens]
      have hlength : b.placed.length + l.blank.length = (b.placed ++ l.blank).length := by simp
      have htoken : tokens[b.placed.length + l.blank.length]? = some l.token := by
        rw [htokens, hlength, List.getElem?_append_right (Nat.le_refl _), Nat.sub_self]
        rfl
      have hblank : tokens.take (b.placed.length + l.blank.length) = b.placed ++ l.blank := by
        rw [htokens, hlength, List.take_left]
      have htaken : tokens.take (b.placed.length + l.blank.length + 1) =
          b.placed ++ (l.blank ++ [l.token]) := by
        rw [List.take_add_one, hblank, htoken, List.append_assoc]
        rfl
      have hadvance : b.advance.pending.toList =
          b.pending.toList ++ leaves b.made (l.blank ++ [l.token]) := by
        rw [advance_cons hb]
        simp
      refine ⟨Nat.le_add_right .., ?_, htoken, ?_, ?_⟩
      · rw [hblank, List.drop_left]
        exact hl.blank
      · rw [htaken, placed, hadvance, Tree.tokensList_append, tokensList_leaves]
        rfl
      · rw [htaken, List.drop_left, hadvance]

end InStep

/-! ### Up and down -/

theorem Step.depth_le (h : Step base b b') (hb : b.depth ≤ maxDepth) : b'.depth ≤ maxDepth := by
  cases h with
  | advance => rwa [depth_advance]
  | flush => rwa [depth_flush]
  | report p => rwa [depth_report]
  | finish => exact hb
  | descend room => exact room
  | ascend => exact Nat.le_trans (Nat.sub_le ..) hb

theorem Grows.depth_eq (h : Grows base found b b') : b'.depth = b.depth := by
  induction h with
  | refl => rfl
  | trans _ _ ih ih' => exact ih'.trans ih
  | advance b => exact depth_advance b
  | flush b => exact depth_flush b
  | report b p => exact depth_report b p
  | finish => rfl
  | nested _ _ ih => simp [ih]
  | mark _ ih => exact ih.trans (depth_flush _)
  | list _ _ _ ih => exact ih.trans (depth_flush _)
  | emptyList => rfl

end Builder

/-! ### Parsers -/

namespace Grammar

/-- What parsers are told that are used in more than one place: how tight operators have to bind,
the tokens and keywords to look for, and the problem to report. -/
structure Request where
  least : Nat
  kind : TokenKind
  word : String
  words : List String
  problem : Problem

/-- Single tokens. -/
def tokenParsers (r : Request) : List (Parser Unit) :=
  [advance, skipOptional r.kind, skipOptionalKeyword r.word, expect r.kind r.word,
    expectKeyword r.word, endStatement, skipToken r.problem]

/-- Parts of expressions. -/
def operandParsers (rules : Rules) (r : Request) : List (Parser Unit) :=
  [bracedExpression rules, memberName rules, argument rules, arguments rules, argumentList rules,
    arrayElement rules, arrayElements rules r.kind, useClause rules, anonymousClass rules,
    classDesignator rules, matchConditions rules, matchArm rules]

/-- Declarations and their parts. -/
def declarationParsers (rules : Rules) (r : Request) : List (Parser Unit) :=
  [qualifiedName, nameList, balancedBraces, compoundStatement rules, functionBody rules,
    typeDeclaration rules, returnType rules, parameter rules, parameterList rules,
    namedHeader rules .functionDeclarationHeader, namedHeader rules .methodDeclarationHeader,
    functionDeclaration rules, constElements rules .constElement,
    constElements rules .classConstElement, heritageClause r.word .classBaseClause,
    heritageClause r.word .classInterfaceClause, classHeritage, method rules, properties rules,
    traitUse, enumCase rules, classConst rules, classMember rules, classBody rules,
    classDeclaration rules .classDeclaration, classDeclaration rules .interfaceDeclaration,
    classDeclaration rules .traitDeclaration, classDeclaration rules .enumDeclaration]

/-- Statements and their parts. -/
def statementParsers (rules : Rules) (r : Request) : List (Parser Unit) :=
  [statementList rules fun _ => false, statementList rules (·.isAt r.kind),
    statementList rules (·.isKeyword r.word), statementList rules (·.isAnyKeyword r.words),
    expressionsUntil rules r.kind, condition rules, loopBody rules r.word, inlineText, nullStatement,
    expressionStatement rules, jump rules .breakStatement, jump rules .continueStatement,
    jump rules .returnStatement, operands rules .echoStatement, operands rules .globalDeclaration,
    throwStatement rules, gotoStatement, label, alternativeClauses rules r.words, ifStatement rules,
    whileStatement rules, doStatement rules, forStatement rules, foreachBinding rules,
    foreachStatement rules, switchCase rules (·.isAt r.kind), switchCase rules (·.isKeyword r.word),
    switchCases rules (·.isAt r.kind), switchCases rules (·.isKeyword r.word), switchStatement rules,
    catchClause rules, tryStatement rules, declareStatement rules, staticVariables rules,
    namespaceDefinition rules, importTokens, useDeclaration, constDeclaration rules,
    labelOrExpression rules, keywordStatement rules, statement rules]

/-- All parsers of the grammar that work behind a mark of their own. -/
def parsers (rules : Rules) (r : Request) : List (Parser Unit) :=
  tokenParsers r ++ expressionParsers rules r.least ++ operandParsers rules r ++
    declarationParsers rules r ++ statementParsers rules r

/-! ### What is seen settles what they do -/

theorem tokenParsers_settled (r : Request) : ∀ p ∈ tokenParsers r, Settled fun _ => p := by
  simp only [tokenParsers, List.forall_mem_cons]
  exact ⟨.advance, skipOptional_settled, skipOptionalKeyword_settled, expect_settled,
    expectKeyword_settled, endStatement_settled, skipToken_settled, by simp⟩

section Settled

variable {rules : Rules} (h : RulesSettled rules)
include h

theorem operandParsers_settled (r : Request) :
    ∀ p ∈ operandParsers rules r, Settled fun _ => p := by
  simp only [operandParsers, List.forall_mem_cons]
  exact ⟨bracedExpression_settled h, (memberName_operand h).settled, argument_settled h,
    (arguments_operand h).settled, argumentList_settled h, (arrayElement_operand h).settled,
    (arrayElements_operand h).settled, useClause_settled h, (anonymousClass_operand h).settled,
    (classDesignator_operand h).settled, matchConditions_settled h, (matchArm_operand h).settled,
    by simp⟩

theorem declarationParsers_settled (r : Request) :
    ∀ p ∈ declarationParsers rules r, Settled fun _ => p := by
  simp only [declarationParsers, List.forall_mem_cons]
  exact ⟨qualifiedName_operand.settled, nameList_settled, balancedBraces_settled,
    (compoundStatement_operand h).settled, (functionBody_operand h).settled,
    typeDeclaration_settled h, returnType_settled h, (parameter_operand h).settled,
    parameterList_settled h, (namedHeader_operand h rfl).settled,
    (namedHeader_operand h rfl).settled, (functionDeclaration_operand h).settled,
    constElements_settled h rfl, constElements_settled h rfl, heritageClause_settled rfl,
    heritageClause_settled rfl, classHeritage_settled, method_settled h, properties_settled h,
    traitUse_operand.settled, (enumCase_operand h).settled, classConst_settled h,
    classMember_settled h, (classBody_operand h).settled, (classDeclaration_operand h rfl).settled,
    (classDeclaration_operand h rfl).settled, (classDeclaration_operand h rfl).settled,
    (classDeclaration_operand h rfl).settled, by simp⟩

theorem statementParsers_settled (r : Request) :
    ∀ p ∈ statementParsers rules r, Settled fun _ => p := by
  have hkind : Looks (·.isAt r.kind) := fun b => Builder.isAt_sight b r.kind
  have hword : Looks (·.isKeyword r.word) := fun b => Builder.isKeyword_sight b r.word
  have hwords : Looks (·.isAnyKeyword r.words) := fun b => Builder.isAnyKeyword_sight b r.words
  have himport : Settled fun _ => importTokens :=
    .get_bind (fun _ => importTokens_go_settled _ _) (by simp)
  simp only [statementParsers, List.forall_mem_cons]
  exact ⟨(statementList_operand h fun _ => rfl).settled, (statementList_operand h hkind).settled,
    (statementList_operand h hword).settled, (statementList_operand h hwords).settled,
    expressionsUntil_settled h, condition_settled h, loopBody_settled h, inlineText_starts.settled,
    nullStatement_starts.settled, (expressionStatement_starts h).settled,
    (jump_starts h rfl).settled, (jump_starts h rfl).settled, (jump_starts h rfl).settled,
    (operands_starts h rfl).settled, (operands_starts h rfl).settled,
    (throwStatement_starts h).settled, gotoStatement_starts.settled, label_starts.settled,
    alternativeClauses_settled h, (ifStatement_starts h).settled, (whileStatement_starts h).settled,
    (doStatement_starts h).settled, (forStatement_starts h).settled, foreachBinding_settled h,
    (foreachStatement_starts h).settled, switchCase_settled h hkind, switchCase_settled h hword,
    switchCases_settled h hkind, switchCases_settled h hword, (switchStatement_starts h).settled,
    catchClause_settled h, (tryStatement_starts h).settled, (declareStatement_starts h).settled,
    (staticVariables_starts h).settled, (namespaceDefinition_starts h).settled, himport,
    useDeclaration_starts.settled, (constDeclaration_starts h).settled,
    (labelOrExpression_starts h).settled, (keywordStatement_starts h).settled,
    (statement_starts h).settled, by simp⟩

end Settled

theorem parsers_settled (fuel : Nat) (r : Request) :
    ∀ p ∈ parsers (run fuel) r, Settled fun _ => p := by
  have h := run_rulesSettled fuel
  have hexpressions : ∀ p ∈ expressionParsers (run fuel) r.least, Settled fun _ => p :=
    fun p hp => (expressionParsers_operand fuel r.least p hp).settled
  simp only [parsers, List.forall_mem_append]
  exact ⟨⟨⟨⟨tokenParsers_settled r, hexpressions⟩, operandParsers_settled h r⟩,
    declarationParsers_settled h r⟩, statementParsers_settled h r⟩

/-! ### They have results -/

theorem tokenParsers_works (base k : Nat) (r : Request) : ∀ p ∈ tokenParsers r, Works base k p := by
  simp only [tokenParsers, List.forall_mem_cons]
  exact ⟨.advance, skipOptional_works, skipOptionalKeyword_works, expect_works,
    expectKeyword_works, endStatement_works, skipToken_eats.works, by simp⟩

section Works

variable {base k : Nat} {rules : Rules} (h : RulesWork (k + 1) rules)
include h

theorem RulesWork.late : RulesWork k rules := fun rule _ => (h rule).late

theorem operandParsers_works (r : Request) :
    ∀ p ∈ operandParsers rules r, Works base (k + 1) p := by
  simp only [operandParsers, List.forall_mem_cons]
  exact ⟨bracedExpression_works h, memberName_works h, argument_works h, arguments_works h,
    argumentList_works h, arrayElement_works h, arrayElements_works h, useClause_works h,
    anonymousClass_works h, classDesignator_works h, matchConditions_works h, matchArm_works h,
    by simp⟩

theorem declarationParsers_works (r : Request) :
    ∀ p ∈ declarationParsers rules r, Works base (k + 1) p := by
  simp only [declarationParsers, List.forall_mem_cons]
  exact ⟨qualifiedName_eats.works, nameList_works, balancedBraces_works,
    compoundStatement_works h.late, functionBody_works h.late, typeDeclaration_works h.late,
    returnType_works h, parameter_works h, parameterList_works h, (namedHeader_eats h rfl).works,
    (namedHeader_eats h rfl).works, (functionDeclaration_eats h).works, constElements_works h rfl,
    constElements_works h rfl, heritageClause_works rfl, heritageClause_works rfl,
    classHeritage_works, method_works h, properties_works h, traitUse_works, enumCase_works h,
    classConst_works h, classMember_works h, classBody_works h, (classDeclaration_eats h rfl).works,
    (classDeclaration_eats h rfl).works, (classDeclaration_eats h rfl).works,
    (classDeclaration_eats h rfl).works, by simp⟩

/-- Also where no token is left, and so no keyword. -/
theorem keywordStatement_works_atEnd : Works base (k + 1) (keywordStatement rules) := by
  intro b hr hb
  rcases Nat.eq_zero_or_pos b.left with hzero | hpos
  · have hend : b.ahead = [] := List.length_eq_zero_iff.1 (hr.left_eq ▸ hzero)
    have hword : b.word? = none := by simp [Builder.word?, hend]
    refine .get_bind ?_
    rw [hword]
    exact labelOrExpression_works (h _) b hr hb
  · exact keywordStatement_works h.late (h _) hr hpos hb

theorem statementParsers_works (r : Request) :
    ∀ p ∈ statementParsers rules r, Works base (k + 1) p := by
  simp only [statementParsers, List.forall_mem_cons]
  exact ⟨statementList_works h, statementList_works h, statementList_works h,
    statementList_works h, expressionsUntil_works h, condition_works h, loopBody_works h,
    inlineText_works, nullStatement_works, expressionStatement_works (h _),
    (jump_eats h rfl).works, (jump_eats h rfl).works, (jump_eats h rfl).works,
    (operands_eats h rfl).works, (operands_eats h rfl).works, (throwStatement_eats h).works,
    gotoStatement_eats.works, label_works, alternativeClauses_works h.late,
    (ifStatement_eats h).works, (whileStatement_eats h).works, (doStatement_eats h).works,
    (forStatement_eats h).works, foreachBinding_works h, (foreachStatement_eats h).works,
    (switchCase_eats h).works, (switchCase_eats h).works, switchCases_works h,
    switchCases_works h, (switchStatement_eats h).works, (catchClause_eats h).works,
    (tryStatement_eats h).works, (declareStatement_eats h).works, (staticVariables_eats h).works,
    (namespaceDefinition_eats h).works, importTokens_works, useDeclaration_eats.works,
    (constDeclaration_eats h).works, labelOrExpression_works (h _), keywordStatement_works_atEnd h,
    statement_works h.late (h _), by simp⟩

end Works

/-- Fuel for the tokens that are left is enough for all of them. -/
theorem parsers_works (base k : Nat) (r : Request) :
    ∀ p ∈ parsers (run (fuelFor k)) r, Works base (k + 1) p := by
  have h := run_fuelFor_rulesWork k
  simp only [parsers, List.forall_mem_append]
  exact ⟨⟨⟨⟨tokenParsers_works base (k + 1) r, expressionParsers_works base k r.least⟩,
    operandParsers_works h r⟩, declarationParsers_works h r⟩, statementParsers_works h r⟩

end Grammar

/-! ### Whole sources -/

open Builder

/-- What is settled is done in steps on top of the nodes that are there. -/
theorem Parser.Settled.grows {p : Parser Unit} {b b' : Builder} (h : Settled fun _ => p)
    (htidy : b.Tidy) (hp : p b = some ((), b')) : ∃ found, Grows b.pending.size found b b' := by
  have hshows : Shows b.pending.size b ⟨b.sight, []⟩ :=
    ⟨htidy, Nat.le_refl _, rfl, nodes_size b⟩
  rcases h ⟨b.sight, []⟩ with hfails | ⟨_, found, σ', hleads, -⟩
  · cases hp.symm.trans (hfails _ b hshows)
  · obtain ⟨b₁, heq, hgrows, -⟩ := hleads _ b hshows
    cases hp.symm.trans heq
    exact ⟨found, hgrows⟩

/-- Whatever the tokens are, the stack is used with discipline. Finishing at a mark above the stack,
going down beyond the greatest depth and going up from the top have no result; but the parse of a
source has one, so it does nothing of the kind. All builders on the way are in step with the tokens.
From each of them every parser has a result if the fuel lasts, and whatever the fuel is, a result has
the same nodes below and the same depth. No token is placed before its turn: only blank text stands
between those that are placed and the next one, and to advance is to place it. -/
theorem parsing_keeps_discipline (tokens : List Token) (sourceEnd : Nat) :
    (∀ b kind mark, Parser.finish kind mark b = none ↔ b.pending.size < mark) ∧
    (∀ b, Parser.descend b = none ↔ maxDepth ≤ b.depth) ∧
    (∀ b, Parser.ascend b = none ↔ b.depth = 0) ∧
    (∃ b, Builder.parse tokens sourceEnd = some b ∧
      Relation.ReflTransGen (Step 0) (ofTokens tokens sourceEnd) b) ∧
    (∀ b, Relation.ReflTransGen (Step 0) (ofTokens tokens sourceEnd) b →
      InStep tokens b ∧ b.depth ≤ maxDepth) ∧
    (∀ b, InStep tokens b → ∀ r,
      (∀ p ∈ Grammar.parsers (Grammar.run (Grammar.fuelFor b.left)) r, ∃ b', p b = some ((), b')) ∧
      ∀ fuel, ∀ p ∈ Grammar.parsers (Grammar.run fuel) r, ∀ b', p b = some ((), b') →
        b'.pending.toList.take b.pending.size = b.pending.toList ∧ b'.depth = b.depth ∧
          InStep tokens b') ∧
    ∀ b, InStep tokens b → (b.current? tokens = none ↔ b.atEnd = true) ∧
      ∀ i, b.current? tokens = some i →
        b.placed.length ≤ i ∧ (∀ t ∈ (tokens.take i).drop b.placed.length, t.isTrivia = true) ∧
          tokens[i]? = b.ahead.head?.map Lexeme.token ∧ b.advance.placed = tokens.take (i + 1) ∧
          b.advance.pending.toList =
            b.pending.toList ++ leaves b.made ((tokens.take (i + 1)).drop b.placed.length) := by
  refine ⟨fun _ _ _ => finish_eq_none_iff, fun _ => descend_eq_none_iff, fun _ => ascend_eq_none_iff,
    ?_, ?_, ?_, ?_⟩
  · obtain ⟨b, hparse, hbuilt⟩ := parse_built tokens sourceEnd
    exact ⟨b, hparse, hbuilt.steps⟩
  · intro b hsteps
    induction hsteps with
    | refl => exact ⟨inStep_ofTokens tokens sourceEnd, Nat.zero_le _⟩
    | tail _ hstep ih => exact ⟨hstep.move.inStep ih.1, hstep.depth_le ih.2⟩
  · intro b hb r
    refine ⟨fun p hp => ?_, fun fuel p hp b' heq => ?_⟩
    · obtain ⟨_, b', heq, -⟩ := Grammar.parsers_works 0 b.left r p hp b
        ⟨Nat.zero_le _, hb.left_eq⟩ (Nat.lt_succ_self _)
      exact ⟨b', heq⟩
    · obtain ⟨found, hgrows⟩ := (Grammar.parsers_settled fuel r p hp).grows hb.tidy heq
      refine ⟨?_, hgrows.depth_eq, hgrows.moves.preserves Move.inStep hb⟩
      rw [(hgrows.keeps (Nat.le_refl _)).take_eq]
      exact List.take_of_length_le (by simp)
  · intro b hb
    refine ⟨?_, fun i hi => hb.advance_current hi⟩
    simp [hb.current?_eq, atEnd]

end ArrayShapes.Syntax
