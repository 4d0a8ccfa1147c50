import ArrayShapes.Proofs.Syntax.Hereditary
import ArrayShapes.Syntax.Grammar.Expression

/-!
Blocks, functions and classes keep what the rules keep.
-/

namespace ArrayShapes.Syntax.Grammar

open ArrayShapes.Syntax.Parser ArrayShapes.Syntax.Tree

/-- What the rules do with a hereditary property. Those that read the operand of an operator leave no
operation. -/
structure RulesRetain (ok : Tree → Prop) (rules : Rules) : Prop where
  hereditary : Hereditary ok
  rule : ∀ r, Retains ok fun _ => rules r
  unary : Retains (Simple ok) fun _ => rules .unary
  simpleVariable : Retains (Simple ok) fun _ => rules .simpleVariable
  looseKeyword : Meets (fun L b => AllOf (Simple ok) L b ∧ b.isAnyKeyword looseKeywords = true)
    (fun _ => rules .assignment) fun _ => AllOf (Simple ok)

variable {ok : Tree → Prop} {rules : Rules}

namespace RulesRetain

variable {kind : PhraseKind} {body : Parser Unit} (h : RulesRetain ok rules)
include h

theorem steady : Steady (AllOf ok) := steady_allOf h.hereditary.token

theorem phrase (hkind : kind.isOrdinary = true) (hbody : Retains ok fun _ => body) :
    Retains ok fun _ => phrase kind body :=
  Retains.phrase h.hereditary hkind hbody

theorem finish (hkind : kind.isOrdinary = true) : Retains ok fun start => finish kind start :=
  Retains.finish h.hereditary hkind

theorem marked {α : Type} {f : Nat → Parser α} (hf : Retains ok f) : Retains ok fun _ => mark >>= f :=
  Retains.mark_bind h.hereditary.token hf

end RulesRetain

/-! ### Names -/

section

variable (hok : Hereditary ok)
include hok

theorem qualifiedName_retains : Retains (Simple ok) fun _ => qualifiedName :=
  Retains.phrase_simple hok rfl (steady_allOf hok.token).advance

theorem nameList_retains : Retains ok fun _ => nameList := by
  refine .loop (.get_bind fun _ => .ite ?_ (.pure _))
  exact (qualifiedName_retains hok).of_simple.bind fun _ => (steady_allOf hok.token).accept

theorem heritageClause_retains {keyword : String} {kind : PhraseKind}
    (hkind : kind.isOrdinary = true) : Retains ok fun _ => heritageClause keyword kind := by
  refine .get_bind fun _ => .ite (Retains.phrase hok hkind ?_) (.pure _)
  exact (steady_allOf hok.token).advance.bind fun _ => nameList_retains hok

theorem classHeritage_retains : Retains ok fun _ => classHeritage :=
  (heritageClause_retains hok rfl).bind fun _ => heritageClause_retains hok rfl

theorem traitUse_retains : Retains ok fun _ => traitUse := by
  have htokens : Steady (AllOf ok) := steady_allOf hok.token
  refine Retains.phrase hok rfl (htokens.advance.bind fun _ => (nameList_retains hok).bind fun _ => ?_)
  exact .get_bind fun _ => .ite htokens.balancedBraces htokens.endStatement

end

variable (h : RulesRetain ok rules)
include h

/-! ### Blocks -/

theorem list_retains {kind : PhraseKind} {go : Builder → Bool} {p : Parser Unit} {q : Problem}
    (hkind : kind.isOrdinary = true) (hp : Retains ok fun _ => p) :
    Retains ok fun _ => listPhrase kind (loopWhile go
      (progress p >>= fun moved => if (!moved) = true then skipToken q else pure ())) := by
  refine Retains.listPhrase h.hereditary hkind (.loopWhile (hp.progress.bind fun _ => ?_))
  exact .ite (Retains.skipToken h.hereditary).of_simple (.pure _)

theorem statementList_retains {isEnd : Builder → Bool} :
    Retains ok fun _ => statementList rules isEnd :=
  list_retains h rfl (h.rule .statement)

theorem block_retains {kind : PhraseKind} (hkind : kind.isOrdinary = true) :
    Retains ok fun _ => block rules kind := by
  refine h.phrase hkind (h.steady.expect?.bind fun _ => .ite ?_ (.pure _))
  exact (statementList_retains h).bind fun _ => h.steady.expect

theorem compoundStatement_retains : Retains ok fun _ => compoundStatement rules :=
  block_retains h rfl

theorem functionBody_retains : Retains ok fun _ => functionBody rules := block_retains h rfl

/-! ### Functions -/

theorem typeMember_retains : Retains ok fun _ => typeMember rules := by
  refine h.steady.accept.bind fun _ => .ite ?_ (.get_bind fun _ => .ite ?_ (.pure _))
  · exact (h.rule .typeDeclaration).bind fun _ => h.steady.expect.bind fun _ => .pure _
  · exact (qualifiedName_retains h.hereditary).of_simple.bind fun _ => .pure _

theorem typeDeclaration_retains : Retains ok fun _ => typeDeclaration rules := by
  have hloop : Retains ok fun _ => loop do
      skipOptional .question
      let member ← typeMember rules
      if member && joinsType (← get) then
        advance
        return true
      else
        return false := by
    refine .loop (h.steady.skipOptional.bind fun _ => (typeMember_retains h).bind fun _ => ?_)
    exact .get_bind fun _ => .ite (h.steady.advance.bind fun _ => .pure _) (.pure _)
  refine h.marked (hloop.progress.bind fun _ => .ite ?_ (.pure _))
  exact h.finish rfl

theorem returnType_retains : Retains ok fun _ => returnType rules := by
  refine .get_bind fun _ => .ite (h.phrase rfl ?_) (.pure _)
  exact h.steady.advance.bind fun _ => h.rule .typeDeclaration

theorem parameter_retains : Retains ok fun _ => parameter rules := by
  refine h.phrase rfl (h.steady.skipKeywords.bind fun _ => .get_bind fun _ => ?_)
  refine .when (h.rule .typeDeclaration) fun _ => h.steady.skipOptional.bind fun _ => ?_
  refine h.steady.skipOptional.bind fun _ => h.steady.accept.bind fun _ => ?_
  refine .when (h.steady.report _) fun _ => h.steady.accept.bind fun _ => ?_
  exact .ite (h.rule .expression) (.pure _)

theorem parameterList_retains : Retains ok fun _ => parameterList rules := by
  have hlist : Retains ok fun _ => phrase .parameterDeclarationList <| loop do
      let b ← get
      if !b.atEnd && !b.isAt .closeParen then
        if ← progress (parameter rules) then accept .comma else return false
      else
        return false := by
    refine h.phrase rfl (.loop (.get_bind fun _ => .ite ?_ (.pure _)))
    exact (parameter_retains h).progress.bind fun _ => .ite h.steady.accept (.pure _)
  exact h.steady.expect.bind fun _ => hlist.bind fun _ => h.steady.expect

theorem namedHeader_retains {kind : PhraseKind} (hkind : kind.isOrdinary = true) :
    Retains ok fun _ => namedHeader rules kind := by
  refine h.phrase hkind (h.steady.advance.bind fun _ => ?_)
  refine h.steady.skipOptional.bind fun _ => h.steady.expect.bind fun _ => ?_
  exact (parameterList_retains h).bind fun _ => returnType_retains h

theorem functionDeclaration_retains : Retains ok fun _ => functionDeclaration rules :=
  h.phrase rfl ((namedHeader_retains h rfl).bind fun _ => functionBody_retains h)

theorem constElements_retains {kind : PhraseKind} (hkind : kind.isOrdinary = true) :
    Retains ok fun _ => constElements rules kind := by
  refine .loop (h.marked (h.steady.expect?.bind fun _ => .ite ?_ (.pure _)))
  refine h.steady.expect.bind fun _ => (h.rule .expression).bind fun _ => ?_
  exact (h.finish hkind).bind fun _ => h.steady.accept

/-! ### Classes -/

theorem method_retains : Retains ok fun _ => method rules := by
  refine (namedHeader_retains h rfl).bind fun _ => h.phrase rfl (.get_bind fun _ => ?_)
  exact .ite (compoundStatement_retains h) h.steady.endStatement

theorem properties_retains : Retains ok fun _ => properties rules := by
  have hproperty : Retains ok fun _ => (do
      let start ← mark
      if ← expect? .variableName "$variable" then
        if ← accept .equals then rules .expression
        if (← get).isAt .openBrace then balancedBraces
        finish .propertyElement start
        accept .comma
      else
        return false : Parser Bool) := by
    refine h.marked (h.steady.expect?.bind fun _ => .ite ?_ (.pure _))
    refine h.steady.accept.bind fun _ => .when (h.rule .expression) fun _ => .get_bind fun _ => ?_
    refine .when h.steady.balancedBraces fun _ => ?_
    exact (h.finish rfl).bind fun _ => h.steady.accept
  refine .get_bind fun _ => .when (h.rule .typeDeclaration) fun _ => ?_
  refine .bind (.loop hproperty) fun _ => .get_bind fun _ => ?_
  exact .ite h.steady.endStatement (.pure _)

theorem enumCase_retains : Retains ok fun _ => enumCase rules := by
  refine h.phrase rfl (h.steady.advance.bind fun _ => h.steady.expect.bind fun _ => ?_)
  refine h.steady.accept.bind fun _ => ?_
  exact .when (h.rule .expression) fun _ => h.steady.endStatement

theorem classConst_retains : Retains ok fun _ => classConst rules := by
  refine h.steady.advance.bind fun _ => .get_bind fun _ => .when (h.rule .typeDeclaration) ?_
  exact fun _ => (constElements_retains h rfl).bind fun _ => h.steady.endStatement

theorem classMember_retains : Retains ok fun _ => classMember rules := by
  refine h.marked (.get_bind fun _ => .ite (traitUse_retains h.hereditary) ?_)
  refine .ite (enumCase_retains h) (h.steady.skipKeywords.progress.bind fun _ => ?_)
  refine .when (h.finish rfl) fun _ => .get_bind fun _ => ?_
  refine .ite ((method_retains h).bind fun _ => h.finish rfl) ?_
  refine .ite ((classConst_retains h).bind fun _ => h.finish rfl) ?_
  exact .ite ((properties_retains h).bind fun _ => h.finish rfl) (.pure _)

theorem classBody_retains : Retains ok fun _ => classBody rules := by
  refine h.phrase rfl (h.steady.expect?.bind fun _ => .ite ?_ (.pure _))
  exact (list_retains h rfl (classMember_retains h)).bind fun _ => h.steady.expect

theorem classDeclaration_retains {kind : PhraseKind} (hkind : kind.isOrdinary = true) :
    Retains ok fun _ => classDeclaration rules kind := by
  have hheritage : Retains ok fun _ => classHeritage := classHeritage_retains h.hereditary
  refine h.phrase hkind (.bind (h.phrase rfl ?_) fun _ => classBody_retains h)
  refine h.steady.skipKeywords.bind fun _ => h.steady.advance.bind fun _ => ?_
  refine h.steady.expect.bind fun _ => .ite (h.steady.accept.bind fun _ => ?_) hheritage
  exact .when (h.rule .typeDeclaration) fun _ => hheritage

end ArrayShapes.Syntax.Grammar
