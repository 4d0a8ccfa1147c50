import ArrayShapes.Proofs.Syntax.Turns
import ArrayShapes.Syntax.Grammar.Declaration

/-!
How many turns blocks, functions and classes have, in terms of what the rules leave.
-/

namespace ArrayShapes.Syntax.Grammar

open ArrayShapes.Syntax.Parser

/-- What the rules leave at depth `d`. Rules that enter a deeper level stay below `K`; the others
go around in circles that do not count, and add a bounded number of turns apart from them. -/
structure RulesBounded (rules : Rules) (d K : Nat) : Prop where
  three_le : 3 ≤ K
  statement : Emits d (AtMost K) (rules .statement)
  expression : Emits d (AtMost K) (rules .expression)
  unary : Emits d (AtMost K) (rules .unary)
  assignment : Emits d (AtMost (K + 15)) (rules .assignment)
  binary : ∀ least, Emits d (AtMost (K + (14 - least) + 1)) (rules (.binary least))
  simpleVariable : Emits d (Fits .simpleVariable (K + 1)) (rules .simpleVariable)
  typeDeclaration : Emits d (Fits .typeDeclaration 2) (rules .typeDeclaration)

variable {rules : Rules} {d k K : Nat}

/-! ### Names -/

theorem qualifiedName_emits : Emits d (AtMost 1) qualifiedName := .phrase steady_weighs.advance

theorem nameList_within : Within d (k + 2) fun _ => nameList := by
  refine .loop (.get_bind fun _ => .ite ?_ (.pure _))
  exact (qualifiedName_emits.within (by omega)).bind fun _ => steady_weighs.accept

theorem heritageClause_emits {keyword : String} {kind : PhraseKind} :
    Emits d (AtMost 2) (heritageClause keyword kind) :=
  .get_bind fun _ => .ite (.phrase (steady_weighs.advance.bind fun _ => nameList_within)) (.pure _)

theorem classHeritage_emits : Emits d (AtMost 2) classHeritage :=
  heritageClause_emits.bind fun _ => heritageClause_emits

theorem traitUse_emits : Emits d (AtMost 2) traitUse := by
  refine .phrase (steady_weighs.advance.bind fun _ => nameList_within.bind fun _ => ?_)
  exact .get_bind fun _ => .ite steady_weighs.balancedBraces steady_weighs.endStatement

variable (h : RulesBounded rules d K)
include h

/-- A type in front of something else. -/
theorem RulesBounded.type_within (hk : 2 < k) : Within d k fun _ => rules .typeDeclaration :=
  (h.typeDeclaration.mono fun _ hx => hx.atMost).within hk

theorem RulesBounded.variable_within (hk : K + 1 < k) : Within d k fun _ => rules .simpleVariable :=
  (h.simpleVariable.mono fun _ hx => hx.atMost).within hk

/-! ### Blocks -/

/-- A list of what `p` reads; what it does not take is an error. -/
theorem list_emits {kind : PhraseKind} {go : Builder → Bool} {p : Parser Unit} {q : Problem}
    (hp : Emits d (AtMost (K + k)) p) :
    Emits d (AtMost (K + k + 1)) (listPhrase kind (loopWhile go
      (progress p >>= fun moved => if (!moved) = true then skipToken q else pure ()))) := by
  have hK : 3 ≤ K := h.three_le
  refine .listPhrase (.loopWhile ((hp.within (by omega)).progress.bind fun _ => ?_))
  exact .ite (Emits.skipToken.within (by omega)) (.pure _)

theorem statementList_emits {isEnd : Builder → Bool} :
    Emits d (AtMost (K + 1)) (statementList rules isEnd) :=
  list_emits h (k := 0) h.statement

theorem block_emits {kind : PhraseKind} : Emits d (AtMost (K + 2)) (block rules kind) := by
  refine .phrase (steady_weighs.expect?.bind fun _ => .ite ?_ (.pure _))
  exact ((statementList_emits h).within (by omega)).bind fun _ => steady_weighs.expect

theorem compoundStatement_emits : Emits d (AtMost (K + 2)) (compoundStatement rules) := block_emits h

theorem functionBody_emits : Emits d (AtMost (K + 2)) (functionBody rules) := block_emits h

/-! ### Functions -/

theorem typeMember_emits : Emits d (Fits .typeDeclaration 2) (typeMember rules) := by
  have htokens (L₀ : List Tree) : Steady (Grown d (Fits .typeDeclaration 2) L₀) :=
    steady_grown fits_token
  intro L₀
  refine (htokens L₀).accept.bind fun _ => .ite ?_ (.get_bind fun _ => .ite ?_ (.pure _))
  · exact (h.typeDeclaration L₀).bind fun _ => (htokens L₀).expect.bind fun _ => .pure _
  · have hname : Emits d (Fits .typeDeclaration 2) qualifiedName :=
      qualifiedName_emits.mono fun _ hx => hx.fits (by omega)
    exact (hname L₀).bind fun _ => .pure _

theorem typeDeclaration_emits : Emits d (Fits .typeDeclaration 2) (typeDeclaration rules) := by
  have htokens : Steady (Grown d (Fits .typeDeclaration 2) []) := steady_grown fits_token
  have hloop : Maintains (Grown d (Fits .typeDeclaration 2) []) fun _ => loop do
      skipOptional .question
      let member ← typeMember rules
      if member && joinsType (← get) then
        advance
        return true
      else
        return false := by
    refine .loop (htokens.skipOptional.bind fun _ => (typeMember_emits h []).bind fun _ => ?_)
    exact .get_bind fun _ => .ite (htokens.advance.bind fun _ => .pure _) (.pure _)
  refine .mark_bind fits_token (hloop.progress.bind fun _ => .ite ?_ (.pure _))
  exact finish_fits (fun _ _ _ _ => rfl) fun _ _ => rfl

theorem returnType_emits : Emits d (AtMost 3) (returnType rules) := by
  refine .get_bind fun _ => .ite (.phrase ?_) (.pure _)
  exact steady_weighs.advance.bind fun _ => h.type_within (by omega)

theorem parameter_emits : Emits d (AtMost (K + 1)) (parameter rules) := by
  have hK : 3 ≤ K := h.three_le
  refine .phrase (steady_weighs.skipKeywords.bind fun _ => .get_bind fun _ => ?_)
  refine .when (h.type_within (by omega)) fun _ => steady_weighs.skipOptional.bind fun _ => ?_
  refine steady_weighs.skipOptional.bind fun _ => steady_weighs.accept.bind fun _ => ?_
  refine .when (steady_weighs.report _) fun _ => steady_weighs.accept.bind fun _ => ?_
  exact .ite (h.expression.within (by omega)) (.pure _)

theorem parameterList_within : Within d (K + k + 3) fun _ => parameterList rules := by
  have hlist : Emits d (AtMost (K + 2)) (phrase .parameterDeclarationList <| loop do
      let b ← get
      if !b.atEnd && !b.isAt .closeParen then
        if ← progress (parameter rules) then accept .comma else return false
      else
        return false) := by
    refine .phrase (.loop (.get_bind fun _ => .ite ?_ (.pure _)))
    refine ((parameter_emits h).within (by omega)).progress.bind fun _ => ?_
    exact .ite steady_weighs.accept (.pure _)
  refine steady_weighs.expect.bind fun _ => (hlist.within (by omega)).bind fun _ => ?_
  exact steady_weighs.expect

theorem namedHeader_emits {kind : PhraseKind} : Emits d (AtMost (K + 3)) (namedHeader rules kind) := by
  have hK : 3 ≤ K := h.three_le
  refine .phrase (steady_weighs.advance.bind fun _ => steady_weighs.skipOptional.bind fun _ => ?_)
  refine steady_weighs.expect.bind fun _ => (parameterList_within h (k := 0)).bind fun _ => ?_
  exact (returnType_emits h).within (by omega)

theorem functionDeclaration_emits : Emits d (AtMost (K + 4)) (functionDeclaration rules) :=
  .phrase (((namedHeader_emits h).within (by omega)).bind fun _ =>
    (functionBody_emits h).within (by omega))

theorem constElements_within {kind : PhraseKind} :
    Within d (K + k + 2) fun _ => constElements rules kind := by
  refine .loop (Emits.within (.marked (k := K + 1) ?_) (by omega))
  refine steady_weighs.expect?.bind fun _ => .ite (steady_weighs.expect.bind fun _ => ?_) (.pure _)
  refine (h.expression.within (by omega)).bind fun _ => Within.finish.bind fun _ => ?_
  exact steady_weighs.accept

/-! ### Classes -/

theorem method_within : Within d (K + 4) fun _ => method rules := by
  refine ((namedHeader_emits h).within (by omega)).bind fun _ =>
    Emits.within (.phrase (k := K + 3) (.get_bind fun _ => .ite ?_ ?_)) (by omega)
  · exact (compoundStatement_emits h).within (by omega)
  · exact steady_weighs.endStatement

theorem properties_within : Within d (K + k + 2) fun _ => properties rules := by
  have hK : 3 ≤ K := h.three_le
  have hproperty : Emits d (AtMost (K + 1)) (do
      let start ← mark
      if ← expect? .variableName "$variable" then
        if ← accept .equals then rules .expression
        if (← get).isAt .openBrace then balancedBraces
        finish .propertyElement start
        accept .comma
      else
        return false) := by
    refine .marked (steady_weighs.expect?.bind fun _ => .ite ?_ (.pure _))
    refine steady_weighs.accept.bind fun _ => .when (h.expression.within (by omega)) fun _ => ?_
    refine .get_bind fun _ => .when steady_weighs.balancedBraces fun _ => ?_
    exact Within.finish.bind fun _ => steady_weighs.accept
  refine .get_bind fun _ => .when (h.type_within (by omega)) fun _ => ?_
  refine .bind (.loop (hproperty.within (by omega))) fun _ => .get_bind fun _ => ?_
  exact .ite steady_weighs.endStatement (.pure _)

theorem enumCase_emits : Emits d (AtMost (K + 1)) (enumCase rules) := by
  refine .phrase (steady_weighs.advance.bind fun _ => steady_weighs.expect.bind fun _ => ?_)
  refine steady_weighs.accept.bind fun _ => ?_
  exact .when (h.expression.within (by omega)) fun _ => steady_weighs.endStatement

theorem classConst_within : Within d (K + k + 2) fun _ => classConst rules := by
  have hK : 3 ≤ K := h.three_le
  refine steady_weighs.advance.bind fun _ => .get_bind fun _ => .when (h.type_within (by omega)) ?_
  exact fun _ => (constElements_within h).bind fun _ => steady_weighs.endStatement

theorem classMember_emits : Emits d (AtMost (K + 4)) (classMember rules) := by
  refine .marked (.get_bind fun _ => .ite (traitUse_emits.within (by omega)) ?_)
  refine .ite ((enumCase_emits h).within (by omega)) ?_
  refine steady_weighs.skipKeywords.progress.bind fun _ => .when Within.finish fun _ => ?_
  refine .get_bind fun _ => .ite ((method_within h).bind fun _ => Within.finish) ?_
  refine .ite ((classConst_within h).bind fun _ => Within.finish) ?_
  exact .ite ((properties_within h).bind fun _ => Within.finish) (.pure _)

theorem classBody_emits : Emits d (AtMost (K + 6)) (classBody rules) := by
  refine .phrase (steady_weighs.expect?.bind fun _ => .ite ?_ (.pure _))
  refine ((list_emits h (k := 4) (classMember_emits h)).within (by omega)).bind fun _ => ?_
  exact steady_weighs.expect

theorem classDeclaration_emits {kind : PhraseKind} :
    Emits d (AtMost (K + 7)) (classDeclaration rules kind) := by
  have hK : 3 ≤ K := h.three_le
  have hheritage : Within d (K + 3) fun _ => classHeritage := classHeritage_emits.within (by omega)
  refine .phrase (.bind (Emits.within (.phrase (k := K + 3) ?_) (by omega)) fun _ =>
    (classBody_emits h).within (by omega))
  refine steady_weighs.skipKeywords.bind fun _ => steady_weighs.advance.bind fun _ => ?_
  refine steady_weighs.expect.bind fun _ => .ite (steady_weighs.accept.bind fun _ => ?_) hheritage
  exact .when (h.type_within (by omega)) fun _ => hheritage

end ArrayShapes.Syntax.Grammar
