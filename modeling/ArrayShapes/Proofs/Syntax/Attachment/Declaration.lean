import ArrayShapes.Proofs.Syntax.Attachment

/-!
Blocks, functions and classes attach the declarations in them, if the rules do.
-/

namespace ArrayShapes.Syntax.Grammar

open ArrayShapes.Syntax.Parser Builder
open ArrayShapes.Syntax.Tree hiding id

/-- Expressions close what they leave, types need not, and a statement is added as a whole. -/
structure RulesAttach (rules : Rules) : Prop where
  expression : ∀ {c}, Carries c (fun _ => rules .expression) true
  assignment : ∀ {c}, Carries c (fun _ => rules .assignment) true
  binary : ∀ {c least}, Carries c (fun _ => rules (.binary least)) true
  unary : ∀ {c}, Carries c (fun _ => rules .unary) true
  simpleVariable : ∀ {c}, Carries c (fun _ => rules .simpleVariable) true
  typeDeclaration : ∀ {c}, Carries c (fun _ => rules .typeDeclaration) false
  statement : Appends (fun _ => True) (rules .statement)

variable {rules : Rules} {c : Bool} {kind : PhraseKind}

/-! ### Names -/

theorem qualifiedName_begins : Begins c fun _ => qualifiedName := .phrase rfl advance_begins

/-- A name where there is one. -/
theorem optionalName_carries {f : Unit → Parser Unit} (hf : ∀ u, Carries c (fun _ => f u) c) :
    Carries c (fun _ => get >>= fun b => if b.isAt .name then qualifiedName >>= f else f ()) c := by
  refine Meets.get_bind fun b => .ite (fun hname => ?_) fun _ => (hf ()).pinned
  exact (qualifiedName_begins.pinned (atEnd_of_isAt hname)).bind fun u =>
    (hf u).imp (fun _ _ => Sound.of_true) fun _ _ _ => id

theorem nameList_carries : Carries c (fun _ => nameList) c := by
  refine .loop (Meets.get_bind fun b => .ite (fun hname => ?_) fun _ => .pure fun _ _ hb => hb.1)
  refine (qualifiedName_begins.pinned (atEnd_of_isAt hname)).bind fun _ => ?_
  exact accept_carries.of_true

theorem heritageClause_carries {keyword : String} (hkind : kind.isPlain = true) :
    Carries c (fun _ => heritageClause keyword kind) c := by
  refine Meets.get_bind fun b => .ite (fun hword => ?_) fun _ => .pure fun _ _ hb => hb.1
  have hclause : Begins c fun _ => phrase kind (advance >>= fun _ => nameList) :=
    .phrase hkind (advance_begins.bind fun _ => nameList_carries)
  exact (hclause.pinned (atEnd_of_isKeyword hword)).imp (fun _ _ => id) fun _ _ _ => Sound.of_true

theorem classHeritage_carries : Carries c (fun _ => classHeritage) c :=
  (heritageClause_carries rfl).bind fun _ => heritageClause_carries rfl

theorem traitUse_begins : Begins c fun _ => traitUse := by
  refine .phrase rfl (advance_begins.bind fun _ => nameList_carries.bind fun _ => ?_)
  exact .get_bind fun _ => .ite steady_sound.balancedBraces endStatement_carries

variable (h : RulesAttach rules)
include h

/-! ### Blocks -/

theorem statements_listed {isEnd : Builder → Bool} :
    Meets (fun L _ => L = []) (fun _ => loopWhile (fun b => !b.atEnd && !isEnd b)
      (progress (rules .statement) >>= fun moved =>
        if (!moved) = true then skipToken (.missing .statement) else pure ())) fun _ => Listed := by
  have hstatement : Maintains Listed fun _ => (progress (rules .statement) >>= fun moved =>
      if (!moved) = true then skipToken (.missing .statement) else pure ()) := by
    refine h.statement.listed.progress.bind fun _ => .ite ?_ (.pure _)
    exact of_spoiled skipToken_spoils
  refine (Maintains.loopWhile hstatement).imp ?_ fun _ _ _ => id
  rintro L b rfl -
  exact ⟨orderly_nil, .inl rfl⟩

theorem statementList_carries {isEnd : Builder → Bool} :
    Carries true (fun _ => statementList rules isEnd) true := by
  refine .listPhrase rfl ((statements_listed h).imp (fun _ _ => id) fun _ _ _ hb hclean => ?_)
  exact ⟨(hb hclean).1, fun _ => (hb hclean).2⟩

theorem braced_carries : Carries c (fun _ => do
    if ← expect? .openBrace "\x7b" then
      statementList rules (·.isAt .closeBrace)
      expect .closeBrace "\x7d") true := by
  refine expect?_carries.bind fun _ => .ite ?_ (.pure _)
  exact (statementList_carries h).bind fun _ => expect_carries

theorem block_carries (hkind : kind.isPlain = true) : Carries c (fun _ => block rules kind) true :=
  .phrase hkind (braced_carries h)

theorem compoundStatement_carries : Carries c (fun _ => compoundStatement rules) true :=
  block_carries h rfl

theorem functionBody_carries : Carries c (fun _ => functionBody rules) true := block_carries h rfl

/-! ### Functions -/

theorem typeMember_carries : Carries c (fun _ => typeMember rules) false := by
  refine accept_carries.bind fun _ => .ite ?_ (.get_bind fun _ => .ite ?_ ?_)
  · exact h.typeDeclaration.bind fun _ => (expect_carries.bind fun _ => .pure _).loosen
  · have hname : Carries c (fun _ => qualifiedName) false := .phrase rfl advance_carries
    exact hname.bind fun _ => .pure _
  · exact (Carries.pure _).loosen

theorem typeDeclaration_carries : Carries c (fun _ => typeDeclaration rules) false := by
  refine .marked (.bind (.progress (.loop (c := false) ?_)) fun _ =>
    .ite (finish_carries rfl) (.pure _))
  refine skipOptional_carries.bind fun _ => (typeMember_carries h).bind fun _ => .get_bind fun _ => ?_
  exact .ite (advance_carries.bind fun _ => .pure _) (.pure _)

theorem returnType_carries : Carries c (fun _ => returnType rules) false := by
  refine .get_bind fun _ => .ite (.phrase rfl ?_) (Carries.pure _).loosen
  exact advance_carries.bind fun _ => h.typeDeclaration

theorem parameter_carries : Carries c (fun _ => parameter rules) false := by
  refine .phrase rfl (.bind steady_sound.skipKeywords fun _ => .get_bind fun _ => ?_)
  refine .when h.typeDeclaration fun _ => skipOptional_carries.bind fun _ => ?_
  refine skipOptional_carries.bind fun _ => accept_carries.bind fun _ => ?_
  refine .when report_carries fun _ => accept_carries.bind fun _ => ?_
  exact .ite h.expression.loosen (.pure _)

theorem parameterList_carries : Carries c (fun _ => parameterList rules) true := by
  refine expect_carries.bind fun _ => .bind (.phrase rfl (.loop (c := false) ?_)) fun _ =>
    expect_carries
  refine .get_bind fun _ => .ite ((parameter_carries h).progress.bind fun _ => ?_) (.pure _)
  exact .ite accept_carries (.pure _)

theorem namedHeader_carries (hkind : kind.isPlain = true) :
    Carries c (fun _ => namedHeader rules kind) false := by
  refine .phrase hkind (advance_carries.bind fun _ => skipOptional_carries.bind fun _ => ?_)
  refine expect_carries.bind fun _ => (parameterList_carries h).bind fun _ => ?_
  exact returnType_carries h

theorem functionDeclaration_appends {C : Builder → Prop} : Appends C (functionDeclaration rules) :=
  .phrase_of_carries rfl ((namedHeader_carries h rfl).bind fun _ => functionBody_carries h)

theorem constElements_carries (hkind : kind.isPlain = true) :
    Carries c (fun _ => constElements rules kind) true := by
  refine .loop_closes (.marked (expect?_carries.bind fun _ => .ite ?_ (.pure _)))
  refine expect_carries.bind fun _ => h.expression.bind fun _ => ?_
  exact (finish_carries hkind).bind fun _ => accept_carries

/-! ### Classes -/

theorem properties_carries : Carries c (fun _ => properties rules) true := by
  refine .get_bind fun _ => .whenever h.typeDeclaration fun _ _ =>
    .bind (.loop_closes (.marked (expect?_carries.bind fun _ => .ite ?_ (.pure _)))) fun _ =>
      .get_bind fun _ => .ite endStatement_carries (.pure _)
  refine accept_carries.bind fun _ => .when h.expression fun _ => .get_bind fun _ => ?_
  refine .when steady_sound.balancedBraces fun _ => (finish_carries rfl).bind fun _ => ?_
  exact accept_carries

theorem enumCase_carries : Carries c (fun _ => enumCase rules) true := by
  refine .phrase rfl (advance_carries.bind fun _ => expect_carries.bind fun _ => ?_)
  exact accept_carries.bind fun _ => .when h.expression fun _ => endStatement_carries

theorem classConst_carries : Carries c (fun _ => classConst rules) true := by
  refine advance_carries.bind fun _ => .get_bind fun _ => .whenever h.typeDeclaration fun _ _ => ?_
  exact (constElements_carries h rfl).bind fun _ => endStatement_carries

/-! A method without a body may end in front of a closing tag or at the end of the source, behind
blank text where its type is missing. No other member follows it then without a problem. -/

def AtStop (b : Builder) : Prop := b.isAt .closeTag = true ∨ b.atEnd = true

omit h in
theorem endStatement_upholds :
    Meets (Sound c) (fun _ => endStatement) fun _ => Upholds fun ts b => Ends ts ∨ AtStop b := by
  refine accept_meets.bind fun taken => ?_
  cases taken with
  | true => exact .pure fun _ _ hb hclean => ⟨(hb hclean).1, .inl ((hb hclean).2 rfl)⟩
  | false =>
      refine .get_bind fun b => .ite (fun _ => ?_) fun hstop => ?_
      · exact of_spoiled report_spoils
      · refine .pure fun L b' hb hclean => ⟨(hb.1 hclean).1, .inr ?_⟩
        rw [hb.2]
        simpa [AtStop, or_iff_not_imp_right] using hstop

theorem namedHeader_upholds (hkind : kind.isPlain = true) :
    Meets (Sound c) (fun _ => namedHeader rules kind) fun _ => Upholds fun ts _ => ts ≠ [] := by
  have hreturn : Meets (Sound true) (fun _ => returnType rules) fun _ => Upholds fun ts _ => ts ≠ [] :=
    (returnType_carries h).keeps_tokens.imp
      (fun L b hb => ⟨hb, fun hclean => ((hb hclean).2 rfl).ne_nil⟩)
      fun _ L b hb hclean => ⟨(hb.1 hclean).1, hb.2 hclean⟩
  have hfinish : Meets (Upholds fun ts _ => ts ≠ []) (fun base => finish kind base) fun _ =>
      Upholds fun ts _ => ts ≠ [] :=
    finish_upholds hkind fun _ _ _ => id
  refine marked_upholds (fun _ _ _ hne => by simp [hne]) (.bind ?_ fun _ => hfinish)
  refine .bind advance_carries fun _ => .bind skipOptional_carries fun _ => ?_
  exact .bind expect_carries fun _ => .bind (parameterList_carries h) fun _ => hreturn

theorem method_upholds :
    Meets (Sound c) (fun _ => method rules) fun _ =>
      Upholds fun ts b => ts ≠ [] ∧ (Ends ts ∨ AtStop b) := by
  have hbody : Meets (Sound false) (fun _ => phrase .methodDeclarationBody do
      if (← get).isAt .openBrace then compoundStatement rules else endStatement) fun _ =>
        Upholds fun ts b => Ends ts ∨ AtStop b := by
    refine marked_upholds (fun _ _ _ hts => hts.imp_left Ends.append) (Meets.bind ?_ fun _ =>
      finish_upholds rfl fun _ _ _ => id)
    refine .get_bind fun b => .ite (fun _ => ?_) fun _ => ?_
    · refine (compoundStatement_carries h).imp (fun _ _ hb => hb.1) fun _ _ _ hb hclean => ?_
      exact ⟨(hb hclean).1, .inl ((hb hclean).2 rfl)⟩
    · exact endStatement_upholds.imp (fun _ _ hb => hb.1) fun _ _ _ => id
  refine (namedHeader_upholds h rfl).bind fun _ => hbody.keeps_tokens.imp ?_ ?_
  · exact fun L b hb => ⟨fun hclean => ⟨(hb hclean).1, by simp⟩, fun hclean => (hb hclean).2⟩
  · exact fun _ L b hb hclean => ⟨(hb.1 hclean).1, hb.2 hclean, (hb.1 hclean).2⟩

/-- One member, as it is left behind a mark of its own. -/
def Member : Assertion := fun L b =>
  b.lastReport = none → Orderly true L ∧ (L = [] ∨ Closed L ∨ AtStop b)

/-- Members of a class so far. -/
def Members : Assertion := fun L b =>
  b.lastReport = none → Orderly true L ∧ (Admits true L ∨ AtStop b)

omit h in
theorem Sound.member {L : List Tree} {b : Builder} (hb : Sound true L b) : Member L b :=
  fun hclean => ⟨(hb hclean).1.relax, .inr (.inl ((hb hclean).2 rfl))⟩

omit h in
theorem finish_method :
    Meets (Upholds fun ts b => ts ≠ [] ∧ (Ends ts ∨ AtStop b))
      (fun base => finish .methodDeclaration base) fun _ => Member := by
  apply Meets.finish
  intro L b base id pos stop hb hclean
  obtain ⟨horderly, hne, hends⟩ := hb hclean
  refine ⟨orderly_nil.concat_phrase horderly (fun _ => ⟨hne, admits_nil⟩) (by simp [PhraseKind.isList]),
    .inr (hends.imp_left closed_phrase.2)⟩

/-- What follows the modifiers of a member. -/
theorem member_meets (modified : Bool) {P : Assertion} (hP : ∀ L b, P L b → Sound false L b)
    (hnone : modified = false → ∀ L b, P L b → Member L b) :
    Meets P (fun start => do
      let b ← get
      if b.isKeyword "function" then
        method rules
        finish .methodDeclaration start
      else if b.isKeyword "const" then
        classConst rules
        finish .classConstDeclaration start
      else if modified || b.isAtAny [.variableName, .question] then
        properties rules
        finish .propertyDeclaration start) fun _ => Member := by
  refine .get_bind fun b₀ => .ite (fun _ => ?_) fun _ => .ite (fun _ => ?_) fun _ =>
    .ite (fun _ => ?_) fun hnot => ?_
  · exact .bind ((method_upholds h).imp (fun L b hb => hP L b hb.1) fun _ _ _ => id) fun _ =>
      finish_method
  · have hfinish : Carries true (fun start => finish .classConstDeclaration start) true :=
      finish_carries rfl
    exact ((classConst_carries h).bind fun _ => hfinish).imp (fun L b hb => hP L b hb.1) fun _ _ _ =>
      Sound.member
  · have hfinish : Carries true (fun start => finish .propertyDeclaration start) true :=
      finish_carries rfl
    exact ((properties_carries h).bind fun _ => hfinish).imp (fun L b hb => hP L b hb.1) fun _ _ _ =>
      Sound.member
  · refine .pure fun L b hb => hnone ?_ L b hb.1
    cases modified with
    | false => rfl
    | true => simp at hnot

omit h in
theorem modifiers_maintain :
    Maintains (fun L b => b.lastReport = none → Orderly false L ∧ (L = [] ∨ Closed L)) fun _ =>
      loopWhile (·.isAnyKeyword memberModifiers) advance := by
  refine Meets.imp (Meets.loopWhile ((advance_begins (c := false)).imp ?_ ?_)) (fun _ _ => id)
    fun _ _ _ hb => hb.1
  · exact fun L b hb => ⟨fun hclean => ⟨(hb.1 hclean).1, by simp⟩, atEnd_of_isAnyKeyword hb.2⟩
  · exact fun _ L b hb hclean => ⟨(hb hclean).1, .inr ((hb hclean).2 rfl)⟩

/-- What follows the mark of a member. -/
theorem markedMember_meets :
    Meets (fun L b => L = [] ∧ b.atEnd = false) (fun start => do
      let b ← get
      if b.isKeyword "use" then traitUse
      else if b.isKeyword "case" then enumCase rules
      else
        let modified ← progress (loopWhile (·.isAnyKeyword memberModifiers) advance)
        if modified then finish .memberModifierList start
        let b ← get
        if b.isKeyword "function" then
          method rules
          finish .methodDeclaration start
        else if b.isKeyword "const" then
          classConst rules
          finish .classConstDeclaration start
        else if modified || b.isAtAny [.variableName, .question] then
          properties rules
          finish .propertyDeclaration start) fun _ => Member := by
  have hnil {L : List Tree} {b : Builder} (hL : L = []) : Sound false L b :=
    fun _ => hL ▸ ⟨orderly_nil, by simp⟩
  refine .get_bind fun b₀ => .ite (fun _ => ?_) fun _ => .ite (fun _ => ?_) fun _ => ?_
  · refine (traitUse_begins (c := false)).imp ?_ fun _ _ _ => Sound.member
    exact fun L b hb => ⟨hnil hb.1.1, hb.1.2⟩
  · exact (enumCase_carries h).imp (fun L b hb => hnil hb.1.1) fun _ _ _ => Sound.member
  · refine .bind (modifiers_maintain.progress.imp ?_ fun _ _ _ => id) fun modified => ?_
    · rintro L b ⟨⟨rfl, -⟩, -⟩ -
      exact ⟨orderly_nil, .inl rfl⟩
    · cases modified with
      | false =>
          refine member_meets h false ?_ fun _ L b hb hclean => ?_
          · exact fun L b hb hclean => ⟨(hb hclean).1, by simp⟩
          · exact ⟨(hb hclean).1.relax, (hb hclean).2.imp_right .inl⟩
      | true =>
          have hfinish : Carries false (fun start => finish .memberModifierList start) false :=
            finish_carries rfl
          refine .bind (hfinish.imp ?_ fun _ _ _ => id) fun _ => ?_
          · exact fun L b hb hclean => ⟨(hb hclean).1, by simp⟩
          · exact member_meets h true (fun _ _ => id) (by simp)

/-- Where there is something to take and no closing tag, all that may follow is a member. -/
theorem classMember_meets :
    Meets (fun L b => Members L b ∧ b.atEnd = false ∧ b.isAt .closeTag = false)
      (fun _ => classMember rules) fun _ => Members := by
  apply Meets.mark_bind
  rintro L b blanks ⟨hb, hend, hopen⟩ hblanks
  refine (markedMember_meets h).imp ?_ ?_
  · rintro _ _ ⟨rfl, rfl⟩
    exact ⟨rfl, by simpa using hend⟩
  · intro _ L' b' hL' hstill hclean
    obtain ⟨horderly, hadmits⟩ := hb (hstill hclean)
    obtain ⟨horderly', hmember⟩ := hL' hclean
    -- a member that ends where there is nothing more to take is not followed by another one
    have hadmits' : Admits true (L ++ blanks) := by
      refine Admits.append (hadmits.resolve_right ?_) (admits_blanks hblanks)
      simp [AtStop, hend, hopen]
    refine ⟨(horderly.append (orderly_blanks hblanks)).append_admits hadmits' horderly', ?_⟩
    rcases hmember with rfl | hclosed | hstop
    · exact .inl (by simpa using hadmits')
    · exact .inl hclosed.append.admits
    · exact .inr hstop

omit h in
/-- A closing tag is no member: only the blank text in front of it is placed. -/
theorem classMember_of_closeTag {b : Builder} (htidy : b.Tidy) (hclose : b.isAt .closeTag = true) :
    classMember rules b = some ((), b.flush) := by
  obtain ⟨l, rest, hahead⟩ : ∃ l rest, b.ahead = l :: rest := by
    cases hahead : b.ahead with
    | nil => simp [isAt, kind?, hahead] at hclose
    | cons l rest => exact ⟨l, rest, rfl⟩
  have hkind : l.token.kind = .closeTag := by simpa [isAt, kind?, hahead] using hclose
  have hword : b.flush.word? = none := by
    have hl := (htidy.ahead l (by simp [hahead])).word
    rw [flush_word?]
    simpa [word?, hahead, hkind] using hl
  have hkey (w : String) : ¬b.flush.isKeyword w = true := by simp [isKeyword, hword]
  have hany : ¬b.flush.isAnyKeyword memberModifiers = true := by simp [isAnyKeyword, hword]
  have hat : ¬(false || b.flush.isAtAny [.variableName, .question]) = true := by
    simp [isAtAny, kind?, flush_cons hahead, hkind]
  have hloop : loopWhile (·.isAnyKeyword memberModifiers) advance b.flush = some ((), b.flush) := by
    refine loop_of_stop ?_
    rw [get_bind_apply, if_neg hany]
    rfl
  have hprogress : progress (loopWhile (·.isAnyKeyword memberModifiers) advance) b.flush =
      some (false, b.flush) := by
    rw [progress, get_bind_apply, bind_of_eq_some hloop, get_bind_apply]
    simp
    rfl
  rw [classMember, mark_bind_apply, get_bind_apply, if_neg (hkey _), if_neg (hkey _),
    bind_of_eq_some hprogress, if_neg (by simp)]
  dsimp only
  rw [get_bind_apply, if_neg (hkey _), if_neg (hkey _), if_neg hat]
  rfl

theorem classMember_maintains :
    Meets (fun L b => Members L b ∧ b.atEnd = false) (fun _ => classMember rules) fun _ => Members := by
  intro base b htidy hle hb a b' heq
  -- in front of a closing tag nothing is left but blank text, which no contract of a mark tells
  cases hclose : b.isAt .closeTag with
  | false => exact classMember_meets h base b htidy hle ⟨hb.1, hb.2, hclose⟩ a b' heq
  | true =>
      change classMember rules b = some (a, b') at heq
      rw [classMember_of_closeTag htidy hclose] at heq
      cases heq
      obtain ⟨blanks, hpending, hblanks⟩ := flush_leaves htidy
      refine ⟨.flush htidy hle, fun hclean => ?_⟩
      rw [lastReport_flush] at hclean
      rw [forest_of_append hle hpending]
      refine ⟨(hb.1 hclean).1.append (orderly_blanks hblanks), .inr (.inl ?_)⟩
      rw [isAt_flush]
      exact hclose

theorem classBody_carries : Carries c (fun _ => classBody rules) true := by
  have hloop : Maintains Members fun _ => loopWhile (fun b => !b.atEnd && !b.isAt .closeBrace)
      (progress (classMember rules) >>= fun moved =>
        if (!moved) = true then skipToken (.missing .member) else pure ()) := by
    refine (Meets.loopWhile ?_).imp (fun _ _ => id) fun _ _ _ hb => hb.1
    refine Meets.bind ((classMember_maintains h).progress.imp ?_ fun _ _ _ => id) fun _ => .ite ?_ ?_
    · exact fun L b hb => ⟨hb.1, by simpa using (Bool.and_eq_true_iff.1 hb.2).1⟩
    · exact fun _ => of_spoiled skipToken_spoils
    · exact fun _ => .pure fun _ _ => id
  have hmembers : Carries true (fun _ => listPhrase .classMemberDeclarationList
      (loopWhile (fun b => !b.atEnd && !b.isAt .closeBrace) do
        if !(← progress (classMember rules)) then skipToken (.missing .member))) false := by
    refine .listPhrase rfl (hloop.imp ?_ fun _ _ _ hb hclean => ⟨(hb hclean).1, by simp⟩)
    rintro L b rfl -
    exact ⟨orderly_nil, .inl admits_nil⟩
  refine .phrase rfl (expect?_carries.bind fun _ => .ite ?_ (.pure _))
  exact hmembers.bind fun _ => expect_carries

theorem classDeclaration_appends {C : Builder → Prop} (hkind : kind.isList = false) :
    Appends C (classDeclaration rules kind) := by
  have hheritage {c : Bool} : Carries c (fun _ => classHeritage) false := classHeritage_carries.loosen
  have hheader : Carries false (fun _ => phrase .classDeclarationHeader do
      loopWhile (·.isAnyKeyword ["abstract", "final", "readonly"]) advance
      advance
      expect .name "identifier"
      if kind = .enumDeclaration then
        if ← accept .colon then rules .typeDeclaration
      classHeritage) false := by
    refine .phrase rfl (.bind steady_sound.skipKeywords fun _ => advance_carries.bind fun _ => ?_)
    refine expect_carries.bind fun _ => .ite (accept_carries.bind fun _ => ?_) hheritage
    exact .whenever h.typeDeclaration fun _ _ => hheritage
  exact .phrase_of_carries hkind (hheader.bind fun _ => classBody_carries h)

end ArrayShapes.Syntax.Grammar
