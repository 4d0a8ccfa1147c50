import ArrayShapes.Proofs.Syntax.Contract

/-!
Variables that are named by variables. Every dollar sign is one more turn, and none of them is a deeper
level for the grammar, so a source may have any number of turns.
-/

namespace ArrayShapes.Syntax

namespace Tree

/-- A way down with at least `k` turns. -/
def Hangs : Nat → Tree → Prop
  | 0, _ => True
  | k + 1, t => ∃ front c rest, t.children = front ++ c :: rest ∧
      front.any (!·.isTrivia) = true ∧ c.Hangs k

/-- Somewhere below these nodes a way down has at least `k` turns. -/
def Holds (k : Nat) (L : List Tree) : Prop := ∃ t ∈ preorderList L, t.Hangs k

theorem Holds.append {k : Nat} {L L' : List Tree} (h : Holds k L) : Holds k (L ++ L') := by
  obtain ⟨t, ht, hk⟩ := h
  exact ⟨t, by rw [preorderList_append]; exact List.mem_append_left _ ht, hk⟩

theorem Holds.append_left {k : Nat} {L L' : List Tree} (h : Holds k L') : Holds k (L ++ L') := by
  obtain ⟨t, ht, hk⟩ := h
  exact ⟨t, by rw [preorderList_append]; exact List.mem_append_right _ ht, hk⟩

theorem Holds.phrase {k id pos stop : Nat} {kind : PhraseKind} {L : List Tree} (h : Holds k L) :
    Holds k [.phrase id kind pos stop L] := by
  obtain ⟨t, ht, hk⟩ := h
  refine ⟨t, ?_, hk⟩
  rw [preorderList, preorder]
  exact List.mem_append_left _ (.tail _ ht)

end Tree

namespace Builder

/-- Tokens of these kinds are ahead, none of them a name, and no problem has been found. -/
structure Facing (ks : List TokenKind) (d : Nat) (b : Builder) : Prop where
  kinds : b.ahead.map (·.token.kind) = ks
  words : ∀ l ∈ b.ahead, l.word = none
  left : b.left = ks.length
  depth : b.depth = d
  clean : b.lastReport = none

namespace Facing

variable {ks : List TokenKind} {k : TokenKind} {d : Nat} {b : Builder}

theorem kind? (h : Facing ks d b) : b.kind? = ks.head? := by
  rw [← h.kinds, List.head?_map]
  rfl

theorem atEnd (h : Facing ks d b) : b.atEnd = ks.isEmpty := by
  rw [← h.kinds, List.isEmpty_map]
  rfl

theorem isAt (h : Facing ks d b) (k : TokenKind) : b.isAt k = (ks.head? == some k) := by
  rw [Builder.isAt, h.kind?]

theorem isAtAny (h : Facing ks d b) (js : List TokenKind) : b.isAtAny js = ks.head?.any js.contains := by
  rw [Builder.isAtAny, h.kind?]

theorem word? (h : Facing ks d b) : b.word? = none := by
  cases hb : b.ahead with
  | nil => simp [Builder.word?, hb]
  | cons l rest => simpa [Builder.word?, hb] using h.words l (by simp [hb])

theorem isKeyword (h : Facing ks d b) (w : String) : b.isKeyword w = false := by
  simp [Builder.isKeyword, h.word?]

theorem isAnyKeyword (h : Facing ks d b) (ws : List String) : b.isAnyKeyword ws = false := by
  simp [Builder.isAnyKeyword, h.word?]

theorem flush (h : Facing ks d b) : Facing ks d b.flush := by
  cases hb : b.ahead with
  | nil =>
      rw [flush_nil hb]
      exact ⟨h.kinds, h.words, h.left, h.depth, h.clean⟩
  | cons l rest =>
      have hkinds := h.kinds
      have hwords := h.words
      rw [hb] at hkinds hwords
      rw [flush_cons hb]
      exact ⟨hkinds, by simpa using hwords, h.left, h.depth, h.clean⟩

theorem advance (h : Facing (k :: ks) d b) : Facing ks d b.advance := by
  cases hb : b.ahead with
  | nil => simpa [hb] using h.kinds
  | cons l rest =>
      have hkinds := h.kinds
      have hwords := h.words
      have hleft := h.left
      rw [hb, List.map_cons, List.cons.injEq] at hkinds
      rw [hb] at hwords
      rw [advance_cons hb]
      exact ⟨hkinds.2, fun l' hl' => hwords l' (.tail _ hl'), by simp [hleft], h.depth, h.clean⟩

theorem finish (h : Facing ks d b) (kind : PhraseKind) (mark : Nat) :
    Facing ks d (b.finish kind mark) :=
  ⟨h.kinds, h.words, h.left, h.depth, h.clean⟩

theorem ofTokens {ts : List Token} (sourceEnd : Nat)
    (hkinds : (ts.filter (!·.isTrivia)).map Token.kind = ks) (hname : .name ∉ ks) :
    Facing ks 0 (.ofTokens ts sourceEnd) := by
  have hahead : (Builder.ofTokens ts sourceEnd).ahead.map (·.token.kind) = ks := by
    rw [← hkinds, ← token_ahead_ofTokens ts sourceEnd, List.map_map]
    rfl
  refine ⟨hahead, fun l hl => ?_, ?_, rfl, rfl⟩
  · have hkind : l.token.kind ∈ ks := hahead ▸ List.mem_map_of_mem hl
    rw [((tidy_ofTokens ts sourceEnd).ahead l hl).word, if_neg]
    rintro hl'
    exact hname (hl' ▸ hkind)
  · rw [← hahead, List.length_map]
    rfl

end Facing

end Builder

namespace Parser

open Builder ArrayShapes.Syntax.Tree

variable {α : Type} {ks ks' : List TokenKind} {k d : Nat} {j : TokenKind}

/-- In front of tokens of these kinds. -/
abbrev Ahead (ks : List TokenKind) (d : Nat) : Assertion := fun _ b => Facing ks d b

/-- In front of tokens of these kinds, with `k` turns somewhere behind the mark. -/
abbrev Behind (k : Nat) (ks : List TokenKind) (d : Nat) : Assertion := fun L b =>
  Holds k L ∧ Facing ks d b

/-- Goes from the one to the other. -/
abbrev Reaches (k : Nat) (ks ks' : List TokenKind) (d : Nat) (p : Parser Unit) : Prop :=
  Meets (Ahead ks d) (fun _ => p) fun _ => Behind k ks' d

section

variable {P : Assertion} {Q : α → Assertion}

/-- What is ahead may be used to choose a branch. -/
theorem get_bind_facing {f : Builder → Nat → Parser α} (hP : ∀ L b, P L b → Facing ks d b)
    (h : ∀ b₀, Facing ks d b₀ → Meets P (f b₀) Q) :
    Meets P (fun base => get >>= fun b => f b base) Q := by
  refine Meets.get_bind fun b₀ => Meets.of_holds (c := Facing ks d b₀) ?_ fun hb => ?_
  · rintro L b ⟨hb, rfl⟩
    exact hP L b hb
  · exact (h b₀ hb).imp (fun _ _ hb => hb.1) fun _ _ _ => id

theorem accept_passed (hP : ∀ L b, P L b → Facing ks d b) (hj : (ks.head? == some j) = false) :
    Meets P (fun _ => accept j) fun taken L b => taken = false ∧ P L b := by
  refine get_bind_facing hP fun b₀ hb => ?_
  rw [hb.isAt, hj]
  exact Meets.pure fun _ _ hb => ⟨rfl, hb⟩

/-- The next token stands behind all that there is. -/
theorem advance_facing {A B : List Tree → Prop}
    (hA : ∀ L blanks id t, A L → t.isTrivia = false → B (L ++ (blanks ++ [.token id t]))) :
    Meets (fun L b => A L ∧ Facing (j :: ks) d b) (fun _ => advance) fun _ L b =>
      B L ∧ Facing ks d b := by
  apply Meets.advance
  · intro L b l rest blanks id hb _ _ htidy
    exact ⟨hA L blanks id l.token hb.1 htidy.token, hb.2.advance⟩
  · intro L b hb hahead
    simpa [hahead] using hb.2.kinds

theorem accept_taken {A B : List Tree → Prop}
    (hA : ∀ L blanks id t, A L → t.isTrivia = false → B (L ++ (blanks ++ [.token id t]))) :
    Meets (fun L b => A L ∧ Facing (j :: ks) d b) (fun _ => accept j) fun taken L b =>
      taken = true ∧ B L ∧ Facing ks d b := by
  refine get_bind_facing (fun _ _ hb => hb.2) fun b₀ hb => ?_
  rw [hb.isAt, List.head?_cons, beq_self_eq_true]
  exact (advance_facing hA).bind fun _ => Meets.pure fun _ _ hb => ⟨rfl, hb⟩

/-- Goes on with the one result that there can be. -/
theorem bind_of_eq {β : Type} {p : Nat → Parser α} {a : α} {f : α → Nat → Parser β}
    {P' : Assertion} {R : β → Assertion} (hp : Meets P p fun a' L b => a' = a ∧ P' L b)
    (hf : Meets P' (f a) R) : Meets P (fun base => p base >>= fun a => f a base) R := by
  refine hp.bind fun a' => Meets.of_holds (c := a' = a) (fun _ _ hb => hb.1) ?_
  rintro rfl
  exact hf.imp (fun _ _ hb => hb.2) fun _ _ _ => id

theorem expect_taken {A B : List Tree → Prop} {text : String}
    (hA : ∀ L blanks id t, A L → t.isTrivia = false → B (L ++ (blanks ++ [.token id t]))) :
    Meets (fun L b => A L ∧ Facing (j :: ks) d b) (fun _ => expect j text) fun _ L b =>
      B L ∧ Facing ks d b := by
  have hexpect : Meets (fun L b => A L ∧ Facing (j :: ks) d b) (fun _ => expect? j text) fun _ L b =>
      B L ∧ Facing ks d b :=
    bind_of_eq (accept_taken hA) (Meets.pure fun _ _ => id)
  exact hexpect.bind fun _ => Meets.pure fun _ _ => id

theorem endStatement_taken {A B : List Tree → Prop}
    (hA : ∀ L blanks id t, A L → t.isTrivia = false → B (L ++ (blanks ++ [.token id t]))) :
    Meets (fun L b => A L ∧ Facing (.semicolon :: ks) d b) (fun _ => endStatement) fun _ L b =>
      B L ∧ Facing ks d b :=
  bind_of_eq (accept_taken hA) (Meets.pure fun _ _ => id)

theorem marked_reaches {f : Nat → Parser Unit}
    (h : Meets (Ahead ks d) f fun _ => Behind k ks' d) : Reaches k ks ks' d (mark >>= f) := by
  apply Meets.mark_bind
  intro L b blanks hb _
  refine h.imp ?_ fun _ L' b' hb' _ => ⟨hb'.1.append_left, hb'.2⟩
  rintro _ _ ⟨-, rfl⟩
  exact hb.flush

theorem finish_behind {kind : PhraseKind} :
    Meets (Behind k ks d) (fun base => finish kind base) fun _ => Behind k ks d :=
  Meets.finish fun _ _ _ _ _ _ hb => ⟨hb.1.phrase, hb.2.finish _ _⟩

theorem phrase_reaches {kind : PhraseKind} {body : Parser Unit} (h : Reaches k ks ks' d body) :
    Reaches k ks ks' d (phrase kind body) :=
  marked_reaches (h.bind fun _ => finish_behind)

theorem nested_reaches {construct : Construct} {body : Parser Unit} (hd : d < maxDepth)
    (h : Reaches k ks ks' (d + 1) body) : Reaches k ks ks' d (nested construct body) := by
  refine Meets.nested ?_ (h.imp ?_ ?_)
  · refine Meets.of_holds (c := False) (fun L b hb => ?_) False.elim
    exact Nat.not_le.2 hd (hb.1.depth ▸ hb.2)
  · rintro L b ⟨d', -, hdepth, hb⟩
    exact ⟨hb.kinds, hb.words, hb.left, hdepth.trans (congrArg (· + 1) hb.depth), hb.clean⟩
  · rintro _ L b ⟨hk, hb⟩
    exact ⟨hk, hb.kinds, hb.words, hb.left, by simp [hb.depth], hb.clean⟩

theorem progress_reaches {body : Parser Unit} (hne : ks'.length ≠ ks.length)
    (h : Reaches k ks ks' d body) :
    Meets (Ahead ks d) (fun _ => progress body) fun moved L b => moved = true ∧ Behind k ks' d L b := by
  refine get_bind_facing (fun _ _ => id) fun b₀ hb₀ => h.bind fun _ =>
    get_bind_facing (fun _ _ hb => hb.2) fun b₁ hb₁ => ?_
  have hmoved : (b₁.left != b₀.left) = true := by simp [hb₁.left, hb₀.left, hne]
  rw [hmoved]
  exact Meets.pure fun _ _ hb => ⟨rfl, hb⟩

/-- A loop that ends before its first round. -/
theorem loopWhile_stops {go : Builder → Bool} {body : Nat → Parser Unit}
    (hgo : ∀ b, Facing ks d b → go b = false) :
    Meets (Behind k ks d) (fun base => loopWhile go (body base)) fun _ => Behind k ks d := by
  refine Meets.loop (get_bind_facing (fun _ _ hb => hb.2) fun b₀ hb => ?_)
  rw [hgo b₀ hb]
  exact Meets.pure fun _ _ => id

end

end Parser

namespace Grammar

open ArrayShapes.Syntax.Parser Builder ArrayShapes.Syntax.Tree

/-- A variable behind `k` dollar signs, and the end of its statement. -/
def chainKinds : Nat → List TokenKind
  | 0 => [.variableName, .semicolon]
  | k + 1 => .dollar :: chainKinds k

variable {rules : Rules} {k d : Nat}

theorem not_isTrivia_of_mem_chainKinds {j : TokenKind} (h : j ∈ chainKinds k) :
    j.isTrivia = false ∧ j ≠ .name := by
  induction k with
  | zero =>
      simp only [chainKinds, List.mem_cons, List.not_mem_nil, or_false] at h
      rcases h with rfl | rfl <;> exact ⟨rfl, by simp⟩
  | succ k ih =>
      rcases List.mem_cons.1 h with rfl | h
      · exact ⟨rfl, by simp⟩
      · exact ih h

theorem head?_chainKinds (k : Nat) :
    (chainKinds k).head? = some .dollar ∨ (chainKinds k).head? = some .variableName := by
  cases k with
  | zero => exact .inr rfl
  | succ k => exact .inl rfl

/-- Induction on the dollar signs: each of them is the first child of a phrase the last child of which
is the rest. -/
theorem simpleVariable_chain (fuel : Nat) (L₀ : List Tree) :
    Meets (fun L b => L = L₀ ∧ Facing (chainKinds k) d b) (fun _ => run fuel .simpleVariable)
      fun _ L b => (∃ front t, L = L₀ ++ front ++ [t] ∧ t.Hangs k) ∧ Facing [.semicolon] d b := by
  induction fuel generalizing k L₀ with
  | zero => exact Meets.failure
  | succ fuel ih =>
      have hbody : Meets (fun L b => L = [] ∧ Facing (chainKinds k) d b) (fun _ => do
          if ← accept .dollar then
            if ← accept .openBrace then
              run fuel .expression
              expect .closeBrace "\x7d"
            else if isVariableStart (← get) then run fuel .simpleVariable
            else report (.missing .variable)
          else expect .variableName "$variable") fun _ L b =>
            (∀ id pos stop, (Tree.phrase id .simpleVariable pos stop L).Hangs k) ∧
              Facing [.semicolon] d b := by
        cases k with
        | zero =>
            refine bind_of_eq (accept_passed (fun _ _ hb => hb.2) rfl) ?_
            exact expect_taken fun _ _ _ _ _ _ _ _ _ => trivial
        | succ k =>
            refine bind_of_eq (accept_taken (B := fun L => L.any (!·.isTrivia) = true) ?_) ?_
            · rintro _ blanks id t rfl ht
              have htoken : (Tree.token id t).isTrivia = false := ht
              simp [htoken]
            -- what names the variable is no expression in braces, so it is a variable again
            refine bind_of_eq (accept_passed (fun _ _ hb => hb.2) ?_) ?_
            · rcases head?_chainKinds k with hhead | hhead <;> rw [hhead] <;> rfl
            refine get_bind_facing (fun _ _ hb => hb.2) fun b₀ hb₀ => ?_
            have hstart : isVariableStart b₀ = true := by
              rw [isVariableStart, hb₀.isAtAny]
              rcases head?_chainKinds k with hhead | hhead <;> rw [hhead] <;> rfl
            simp only [hstart, if_true]
            intro base b htidy hle hb a b' heq
            obtain ⟨hframe, ⟨front, t, hL, ht⟩, hfacing⟩ :=
              ih (b.forest base) base b htidy hle ⟨rfl, hb.2⟩ a b' heq
            refine ⟨hframe, fun id pos stop => ⟨b.forest base ++ front, t, [], hL, ?_, ht⟩, hfacing⟩
            rw [List.any_append, hb.1, Bool.true_or]
      apply Meets.mark_bind
      rintro _ b blanks ⟨rfl, hb⟩ -
      refine (hbody.imp ?_ fun _ _ _ => id).bind fun _ => Meets.finish ?_
      · rintro _ _ ⟨rfl, rfl⟩
        exact ⟨rfl, hb.flush⟩
      · intro L b' base id pos stop hL _
        exact ⟨⟨blanks, _, rfl, hL.1 id pos stop⟩, hL.2.finish _ _⟩

theorem primary_reaches (fuel : Nat) :
    Reaches k (chainKinds k) [.semicolon] d (primary (run fuel)) := by
  have hvariable : Reaches k (chainKinds k) [.semicolon] d (run fuel .simpleVariable) := by
    intro base b htidy hle hb a b' heq
    obtain ⟨hframe, ⟨front, t, hL, ht⟩, hfacing⟩ :=
      simpleVariable_chain fuel _ base b htidy hle ⟨rfl, hb⟩ a b' heq
    rw [hL]
    exact ⟨hframe, .append_left ⟨t, mem_preorderList_of_mem (List.mem_singleton_self t), ht⟩, hfacing⟩
  refine get_bind_facing (fun _ _ => id) fun b₀ hb => ?_
  rw [hb.kind?]
  rcases head?_chainKinds k with hhead | hhead
  · rw [hhead]
    exact hvariable
  · rw [hhead]
    exact hvariable

theorem postfixExpression_reaches (fuel : Nat) :
    Reaches k (chainKinds k) [.semicolon] d (postfixExpression (run fuel)) := by
  refine marked_reaches ((primary_reaches fuel).bind fun _ => Meets.loop ?_)
  refine get_bind_facing (fun _ _ hb => hb.2) fun b₀ hb => ?_
  rw [hb.kind?]
  exact Meets.pure fun _ _ => id

theorem unary_reaches (fuel : Nat) (hd : d < maxDepth) :
    Reaches k (chainKinds k) [.semicolon] d (unary (run fuel)) := by
  refine nested_reaches hd (marked_reaches (get_bind_facing (fun _ _ => id) fun b₀ hb => ?_))
  have hoperator : b₀.isAtAny [.exclamation, .tilde, .minus, .plus, .at, .plusPlus, .minusMinus,
      .ampersand] = false ∧ b₀.isAt .castOperator = false := by
    rw [hb.isAtAny, hb.isAt]
    rcases head?_chainKinds k with hhead | hhead <;> rw [hhead] <;> exact ⟨rfl, rfl⟩
  simp only [hoperator, hb.isKeyword, hb.isAnyKeyword, Bool.false_eq_true, if_false]
  refine (postfixExpression_reaches fuel).bind fun _ =>
    bind_of_eq (accept_passed (fun _ _ hb => hb.2) rfl) ?_
  exact Meets.pure fun _ _ => id

theorem binary_reaches (fuel least : Nat) (hd : d < maxDepth) :
    Reaches k (chainKinds k) [.semicolon] d (binary (run (fuel + 1)) least) := by
  refine marked_reaches ((unary_reaches fuel hd).bind fun _ => Meets.loop ?_)
  refine get_bind_facing (fun _ _ hb => hb.2) fun b₀ hb => ?_
  have hoperator : operatorAhead? b₀ = none := by
    rw [operatorAhead?, hb.isKeyword, hb.kind?]
    rfl
  rw [hoperator]
  exact Meets.pure fun _ _ => id

theorem ternary_reaches (fuel : Nat) (hd : d < maxDepth) :
    Reaches k (chainKinds k) [.semicolon] d (ternary (run (fuel + 2))) := by
  refine marked_reaches ((binary_reaches fuel 0 hd).bind fun _ => loopWhile_stops fun b hb => ?_)
  rw [hb.isAt]
  rfl

theorem assignment_reaches (fuel : Nat) (hd : d < maxDepth) :
    Reaches k (chainKinds k) [.semicolon] d (assignment (run (fuel + 2))) := by
  refine marked_reaches (get_bind_facing (fun _ _ => id) fun b₀ hb => ?_)
  rw [hb.isAnyKeyword]
  refine (ternary_reaches fuel hd).bind fun _ => get_bind_facing (fun _ _ hb => hb.2) fun b₁ hb₁ => ?_
  rw [hb₁.kind?]
  exact Meets.pure fun _ _ => id

theorem expression_reaches (fuel : Nat) (hd : d + 1 < maxDepth) :
    Reaches k (chainKinds k) [.semicolon] d (expression (run (fuel + 3))) := by
  refine nested_reaches (Nat.lt_of_succ_lt hd) (marked_reaches ?_)
  refine (assignment_reaches fuel hd).bind fun _ => loopWhile_stops fun b hb => ?_
  exact hb.isAnyKeyword _

theorem expressionStatement_reaches (fuel : Nat) (hd : d + 1 < maxDepth) :
    Reaches k (chainKinds k) [] d (expressionStatement (run (fuel + 4))) := by
  refine get_bind_facing (fun _ _ => id) fun b₀ hb => ?_
  have hend : isExpressionEnd b₀ = false := by
    rw [isExpressionEnd, hb.isAtAny, hb.atEnd]
    cases k <;> rfl
  rw [hend]
  refine phrase_reaches ((expression_reaches fuel hd).bind fun _ => endStatement_taken ?_)
  exact fun L blanks id t hL _ => hL.append

theorem statement_reaches (fuel : Nat) (hd : d + 2 < maxDepth) :
    Reaches k (chainKinds k) [] d (statement (run (fuel + 4))) := by
  refine nested_reaches (by omega) (get_bind_facing (fun _ _ => id) fun b₀ hb => ?_)
  rw [hb.kind?]
  rcases head?_chainKinds k with hhead | hhead
  · rw [hhead]
    exact expressionStatement_reaches fuel hd
  · rw [hhead]
    exact expressionStatement_reaches fuel hd

theorem inlineText_reaches : Reaches 0 (.openTag :: chainKinds k) (chainKinds k) d inlineText := by
  have hstop : (chainKinds k).head?.any [.inlineHtml, .openTag, .closeTag].contains = false := by
    cases k <;> rfl
  have hround : Meets (fun L b => (Facing (.openTag :: chainKinds k) d b ∨
        Behind 0 (chainKinds k) d L b) ∧ b.isAtAny [.inlineHtml, .openTag, .closeTag] = true)
      (fun _ => advance) fun _ L b => Facing (.openTag :: chainKinds k) d b ∨
        Behind 0 (chainKinds k) d L b := by
    apply Meets.advance
    · rintro L b l rest blanks id ⟨hb | hb, hgo⟩ - - -
      · refine .inr ⟨Holds.append_left (Holds.append_left ?_), hb.advance⟩
        exact ⟨_, mem_preorderList_of_mem (List.mem_singleton_self _), trivial⟩
      · rw [hb.2.isAtAny, hstop] at hgo
        cases hgo
    · intro L b hb _
      exact hb.1
  refine phrase_reaches ((Meets.loopWhile hround).imp (fun _ _ => .inl) ?_)
  rintro _ L b ⟨hb | hb, hgo⟩
  · rw [hb.isAtAny] at hgo
    cases hgo
  · exact hb

theorem openTag_reaches (hd : d < maxDepth) :
    Reaches 0 (.openTag :: chainKinds k) (chainKinds k) d (statement rules) := by
  refine nested_reaches hd (get_bind_facing (fun _ _ => id) fun b₀ hb => ?_)
  rw [hb.kind?]
  exact inlineText_reaches

theorem round_reaches {ks ks' : List TokenKind} (fuel : Nat)
    (h : Reaches k ks ks' d (statement (run fuel))) (hne : ks'.length ≠ ks.length) :
    Reaches k ks ks' d (progress (run (fuel + 1) .statement) >>= fun moved =>
      if (!moved) = true then skipToken (.missing .statement) else pure ()) :=
  bind_of_eq (progress_reaches hne h) (Meets.pure fun _ _ => id)

/-- In front of the opening tag, in front of the variable, or at the end. -/
def Between (k d : Nat) : Assertion := fun L b =>
  (Facing (.openTag :: chainKinds k) d b ∨ Facing (chainKinds k) d b) ∨ Behind k [] d L b

theorem round_between (fuel : Nat) (hd : d + 2 < maxDepth) :
    Meets (fun L b => Between k d L b ∧ (!b.atEnd && !false) = true)
      (fun _ => progress (run (fuel + 5) .statement) >>= fun moved =>
        if (!moved) = true then skipToken (.missing .statement) else pure ())
      fun _ => Between k d := by
  have htag := round_reaches (fuel + 4) (openTag_reaches (k := k) (d := d) (by omega)) (by simp)
  have hchain := round_reaches (fuel + 4) (statement_reaches (k := k) fuel hd)
    (by cases k <;> simp [chainKinds])
  refine Meets.imp (Meets.or (htag.imp (fun _ _ => id) fun _ _ _ hb => .inl (.inr hb.2))
    (hchain.imp (fun _ _ => id) fun _ _ _ => .inr)) ?_ fun _ _ _ => id
  rintro L b ⟨hb | hb, hgo⟩
  · exact hb
  · simp [hb.2.atEnd] at hgo

theorem statementList_reaches (fuel : Nat) (hd : d + 2 < maxDepth) :
    Reaches k (.openTag :: chainKinds k) [] d (statementList (run (fuel + 5)) fun _ => false) := by
  apply Meets.listPhrase
  intro L b hb
  refine (Meets.loopWhile (round_between (k := k) fuel hd)).imp ?_ ?_
  · rintro _ _ ⟨-, rfl⟩
    exact .inl (.inl hb)
  · rintro _ L' b' ⟨(hb' | hb') | hb', hgo⟩ - id pos stop start
    · simp [hb'.atEnd] at hgo
    · rw [hb'.atEnd] at hgo
      cases k <;> cases hgo
    · exact ⟨hb'.1.phrase.append_left, hb'.2.finish _ _⟩

theorem script_reaches : Reaches k (.openTag :: chainKinds k) [] 0 script := by
  refine marked_reaches (get_bind_facing (fun _ _ => id) fun b₀ _ => ?_)
  obtain ⟨fuel, hfuel⟩ : ∃ fuel, fuelFor b₀.left = fuel + 5 := ⟨16 * (b₀.left + 1) - 5, by
    rw [fuelFor]
    omega⟩
  rw [hfuel]
  have hflush : Meets (Behind k [] 0) (fun _ => modify Builder.flush) fun _ => Behind k [] 0 :=
    Meets.flush fun L b blanks hb _ => ⟨hb.1.append, hb.2.flush⟩
  refine (statementList_reaches fuel (by decide)).bind fun _ => hflush.bind fun _ => ?_
  exact finish_behind

end Grammar

end ArrayShapes.Syntax
