import ArrayShapes.Proofs.Syntax.Contract

/-!
Where declarations stand. Between a declaration and what stands before it in the same phrase there is
only blank text, and what stands before it ends in a token that is not blank. So a comment in front of
a declaration is a sibling of it. Only at the start of a list nothing stands before a declaration, and
then the list itself follows such a token.

All this is said of sources in which no problem has been found so far.
-/

namespace ArrayShapes.Syntax

/-- Phrases that declare a function, a method or a class. -/
def PhraseKind.isDeclaration : PhraseKind → Bool
  | .functionDeclaration | .methodDeclaration | .classDeclaration | .interfaceDeclaration
  | .traitDeclaration | .enumDeclaration => true
  | _ => false

/-- Phrases that may stand anywhere. -/
def PhraseKind.isPlain (kind : PhraseKind) : Bool := !kind.isDeclaration && !kind.isList

namespace Tree

def isDeclaration (t : Tree) : Bool := t.phraseKind?.any PhraseKind.isDeclaration

def isListPhrase (t : Tree) : Bool := t.phraseKind?.any PhraseKind.isList

/-- There is a last token, and it is not blank. -/
def Ends (ts : List Token) : Prop := ∃ t, ts.getLast? = some t ∧ t.isTrivia = false

def Closed (L : List Tree) : Prop := Ends (tokensList L)

/-- A declaration may follow: there is only blank text behind what is closed, or behind the start of a
list. -/
def Admits (inList : Bool) (L : List Tree) : Prop :=
  ∃ front blanks, L = front ++ blanks ∧ (∀ x ∈ blanks, x.isTrivia = true) ∧
    (Closed front ∨ inList = true ∧ front = [])

/-- Every declaration has a token and stands where one may follow, and every list follows what is
closed. -/
def Attached (inList : Bool) (L : List Tree) : Prop :=
  ∀ pre d post, L = pre ++ d :: post →
    (d.isDeclaration = true → d.tokens ≠ [] ∧ Admits inList pre) ∧
    (d.isListPhrase = true → Closed pre)

/-- The children of a phrase are attached. -/
def Neat : Tree → Prop
  | .token .. => True
  | .phrase _ kind _ _ cs => Attached kind.isList cs

/-- Nodes that are attached, as is everything below them. -/
structure Orderly (inList : Bool) (L : List Tree) : Prop where
  attached : Attached inList L
  neat : ∀ t ∈ preorderList L, t.Neat

/-- The tree of a source: a list and blank text behind it. -/
def Rooted (t : Tree) : Prop :=
  ∃ id pos stop list blanks, t = .phrase id .script pos stop (list :: blanks) ∧
    list.isListPhrase = true ∧ (∀ t ∈ list.preorder, t.Neat) ∧ ∀ x ∈ blanks, x.isTrivia = true

variable {inList : Bool} {L L' front blanks : List Tree} {id pos stop : Nat} {kind : PhraseKind}

theorem isDeclaration_of_isListPhrase {t : Tree} (h : t.isListPhrase = true) :
    t.isDeclaration = false := by
  cases t with
  | token => cases h
  | phrase id kind => cases kind <;> first | rfl | cases h

/-! ### Closed -/

theorem Ends.append {ts us : List Token} (h : Ends us) : Ends (ts ++ us) := by
  obtain ⟨t, hlast, ht⟩ := h
  exact ⟨t, by simp [hlast], ht⟩

theorem Ends.ne_nil {ts : List Token} (h : Ends ts) : ts ≠ [] := by
  obtain ⟨t, hlast, -⟩ := h
  intro hnil
  simp [hnil] at hlast

theorem Closed.append (h : Closed L') : Closed (L ++ L') := by
  rw [Closed, tokensList_append]
  exact Ends.append h

theorem closed_token {t : Token} (ht : t.isTrivia = false) : Closed [.token id t] :=
  ⟨t, by simp [tokensList, tokens], ht⟩

theorem closed_phrase : Closed [.phrase id kind pos stop L] ↔ Closed L := by
  simp [Closed, tokensList, tokens]

theorem closed_append_empty (h : Closed L) : Closed (L ++ [.phrase id kind pos stop []]) := by
  simpa [Closed, tokensList_append, tokensList, tokens] using h

/-! ### Admits -/

theorem Closed.admits (h : Closed L) : Admits inList L := ⟨L, [], by simp, by simp, .inl h⟩

theorem admits_nil : Admits true [] := ⟨[], [], rfl, by simp, .inr ⟨rfl, rfl⟩⟩

/-- What may follow at the start of a list may follow there. -/
theorem Admits.append (h : Admits inList L) (h' : Admits true L') : Admits inList (L ++ L') := by
  obtain ⟨front, blanks, rfl, hblanks, hfront⟩ := h
  obtain ⟨front', blanks', rfl, hblanks', hclosed | ⟨-, rfl⟩⟩ := h'
  · exact ⟨front ++ blanks ++ front', blanks', by simp, hblanks', .inl hclosed.append⟩
  · refine ⟨front, blanks ++ blanks', by simp, fun x hx => ?_, hfront⟩
    rcases List.mem_append.1 hx with hx | hx
    · exact hblanks x hx
    · exact hblanks' x hx

theorem admits_blanks (hblanks : ∀ x ∈ blanks, x.isTrivia = true) : Admits true blanks :=
  ⟨[], blanks, rfl, hblanks, .inr ⟨rfl, rfl⟩⟩

/-! ### Attached -/

/-- A place in two lists is a place in one of them. -/
theorem append_eq_append_cons {d : Tree} {pre post : List Tree} (h : L ++ L' = pre ++ d :: post) :
    (∃ post', L = pre ++ d :: post') ∨ ∃ pre', pre = L ++ pre' ∧ L' = pre' ++ d :: post := by
  rcases List.append_eq_append_iff.1 h with ⟨pre', rfl, hL'⟩ | ⟨rest, rfl, hrest⟩
  · exact .inr ⟨pre', rfl, hL'⟩
  · cases rest with
    | nil => exact .inr ⟨[], by simp, by simpa using hrest.symm⟩
    | cons d' rest =>
        cases hrest
        exact .inl ⟨rest, rfl⟩

theorem attached_nil : Attached inList [] := by
  intro pre d post h
  simp at h

theorem Attached.append_admits (h : Attached inList L) (hadmits : Admits inList L)
    (h' : Attached true L') : Attached inList (L ++ L') := by
  intro pre d post heq
  rcases append_eq_append_cons heq with ⟨post', hL⟩ | ⟨pre', rfl, hL'⟩
  · exact h pre d post' hL
  · obtain ⟨hdeclaration, hlist⟩ := h' pre' d post hL'
    refine ⟨fun hd => ?_, fun hd => (hlist hd).append⟩
    -- with nothing but blank text in front of it, it follows what the first nodes end in
    exact ⟨(hdeclaration hd).1, hadmits.append (hdeclaration hd).2⟩

theorem Attached.append (h : Attached inList L) (h' : Attached false L') :
    Attached inList (L ++ L') := by
  intro pre d post heq
  rcases append_eq_append_cons heq with ⟨post', hL⟩ | ⟨pre', rfl, hL'⟩
  · exact h pre d post' hL
  · obtain ⟨hdeclaration, hlist⟩ := h' pre' d post hL'
    refine ⟨fun hd => ?_, fun hd => (hlist hd).append⟩
    obtain ⟨hne, front, blanks, rfl, hblanks, hclosed | ⟨hfalse, -⟩⟩ := hdeclaration hd
    · exact ⟨hne, L ++ front, blanks, by simp, hblanks, .inl hclosed.append⟩
    · cases hfalse

theorem Attached.relax (h : Attached false L) : Attached inList L := by
  have hnil : Attached inList [] := attached_nil
  exact hnil.append h

theorem Attached.concat {d : Tree} (h : Attached inList L)
    (hdeclaration : d.isDeclaration = true → d.tokens ≠ [] ∧ Admits inList L)
    (hlist : d.isListPhrase = true → Closed L) : Attached inList (L ++ [d]) := by
  intro pre d' post heq
  rcases append_eq_append_cons heq with ⟨post', hL⟩ | ⟨pre', rfl, hd⟩
  · exact h pre d' post' hL
  · obtain ⟨rfl, rfl⟩ : pre' = [] ∧ d' = d := by
      cases pre' with
      | nil => simp_all
      | cons => simp at hd
    rw [List.append_nil]
    exact ⟨hdeclaration, hlist⟩

/-! ### Orderly -/

theorem orderly_nil : Orderly inList [] := ⟨attached_nil, by simp [preorderList]⟩

theorem neat_append (h : ∀ t ∈ preorderList L, t.Neat) (h' : ∀ t ∈ preorderList L', t.Neat) :
    ∀ t ∈ preorderList (L ++ L'), t.Neat := by
  intro t ht
  rw [preorderList_append] at ht
  rcases List.mem_append.1 ht with ht | ht
  · exact h t ht
  · exact h' t ht

theorem Orderly.append (h : Orderly inList L) (h' : Orderly false L') : Orderly inList (L ++ L') :=
  ⟨h.attached.append h'.attached, neat_append h.neat h'.neat⟩

theorem Orderly.relax (h : Orderly false L) : Orderly inList L := ⟨h.attached.relax, h.neat⟩

theorem Orderly.append_admits (h : Orderly inList L) (hadmits : Admits inList L) (h' : Orderly true L') :
    Orderly inList (L ++ L') :=
  ⟨h.attached.append_admits hadmits h'.attached, neat_append h.neat h'.neat⟩

theorem orderly_token (t : Token) : Orderly inList [.token id t] := by
  refine ⟨attached_nil.concat ?_ ?_, by simp [preorderList, preorder, Neat]⟩
  · simp [isDeclaration, phraseKind?]
  · simp [isListPhrase, phraseKind?]

theorem orderly_blanks (hblanks : ∀ x ∈ blanks, x.isTrivia = true) : Orderly inList blanks := by
  induction blanks generalizing inList with
  | nil => exact orderly_nil
  | cons x blanks ih =>
      obtain ⟨id, t, rfl, -⟩ := eq_token_of_isTrivia (hblanks x (.head _))
      exact (orderly_token t).append (ih fun y hy => hblanks y (.tail _ hy))

/-- A phrase around orderly nodes, behind others. -/
theorem Orderly.concat_phrase (h : Orderly inList L) (h' : Orderly kind.isList L')
    (hdeclaration : kind.isDeclaration = true → tokensList L' ≠ [] ∧ Admits inList L)
    (hlist : kind.isList = true → Closed L) : Orderly inList (L ++ [.phrase id kind pos stop L']) := by
  refine ⟨h.attached.concat hdeclaration hlist, neat_append h.neat fun t ht => ?_⟩
  simp only [preorderList, preorder, List.append_nil, List.mem_cons] at ht
  rcases ht with rfl | ht
  · exact h'.attached
  · exact h'.neat t ht

end Tree

namespace Builder

variable {b : Builder}

theorem atEnd_of_kind? {k : TokenKind} (h : b.kind? = some k) : b.atEnd = false := by
  cases hahead : b.ahead with
  | nil => simp [kind?, hahead] at h
  | cons l rest => simp [atEnd, hahead]

theorem atEnd_of_isAt {k : TokenKind} (h : b.isAt k = true) : b.atEnd = false :=
  atEnd_of_kind? (eq_of_beq h)

theorem atEnd_of_isAtAny {ks : List TokenKind} (h : b.isAtAny ks = true) : b.atEnd = false := by
  obtain ⟨k, hk, -⟩ := (Option.any_eq_true ..).1 h
  exact atEnd_of_kind? hk

theorem atEnd_of_word? {w : String} (h : b.word? = some w) : b.atEnd = false := by
  cases hahead : b.ahead with
  | nil => simp [word?, hahead] at h
  | cons l rest => simp [atEnd, hahead]

theorem atEnd_of_isKeyword {w : String} (h : b.isKeyword w = true) : b.atEnd = false :=
  atEnd_of_word? (eq_of_beq h)

theorem atEnd_of_isAnyKeyword {ws : List String} (h : b.isAnyKeyword ws = true) :
    b.atEnd = false := by
  obtain ⟨w, hw, -⟩ := (Option.any_eq_true ..).1 h
  exact atEnd_of_word? hw

@[simp]
theorem atEnd_flush (b : Builder) : b.flush.atEnd = b.atEnd := by
  cases hahead : b.ahead with
  | nil => simp [atEnd, flush_nil hahead, hahead]
  | cons l rest => simp [atEnd, flush_cons hahead, hahead]

@[simp]
theorem kind?_flush (b : Builder) : b.flush.kind? = b.kind? := by
  cases hahead : b.ahead with
  | nil => simp [kind?, flush_nil hahead, hahead]
  | cons l rest => simp [kind?, flush_cons hahead, hahead]

@[simp]
theorem isAt_flush (b : Builder) (k : TokenKind) : b.flush.isAt k = b.isAt k := by
  rw [isAt, kind?_flush, isAt]

@[simp]
theorem isAtAny_flush (b : Builder) (ks : List TokenKind) : b.flush.isAtAny ks = b.isAtAny ks := by
  rw [isAtAny, kind?_flush, isAtAny]

end Builder

namespace Parser

open Builder
open ArrayShapes.Syntax.Tree hiding id

variable {α β : Type} {c c' : Bool} {p : Nat → Parser α} {L : List Tree} {b b₀ : Builder}

/-! ### Before a problem is found -/

/-- Unless a problem has been found, the nodes behind the mark are orderly, and `K` holds of their
tokens. -/
def Upholds (K : List Token → Builder → Prop) : Assertion := fun L b =>
  b.lastReport = none → Orderly false L ∧ K (tokensList L) b

/-- With `closed`, the last token is not blank. -/
abbrev Sound (closed : Bool) : Assertion := Upholds fun ts _ => closed = true → Ends ts

abbrev Carries (c : Bool) (p : Nat → Parser α) (c' : Bool) : Prop :=
  Meets (Sound c) p fun _ => Sound c'

/-- Closes what is behind the mark, if there is a token to take. -/
abbrev Begins (c : Bool) (p : Nat → Parser α) : Prop :=
  Meets (fun L b => Sound c L b ∧ b.atEnd = false) p fun _ => Sound true

theorem Sound.of_true (h : Sound true L b) : Sound c L b := fun hclean =>
  ⟨(h hclean).1, fun _ => (h hclean).2 rfl⟩

theorem Sound.loosen (h : Sound c L b) : Sound false L b := fun hclean => ⟨(h hclean).1, by simp⟩

namespace Carries

theorem of_true (h : Carries c p true) : Carries c p c' :=
  h.imp (fun _ _ => id) fun _ _ _ => Sound.of_true

theorem loosen (h : Carries c p c') : Carries c p false :=
  h.imp (fun _ _ => id) fun _ _ _ => Sound.loosen

theorem begins (h : Carries c p true) : Begins c p := h.imp (fun _ _ hb => hb.1) fun _ _ _ => id

theorem pinned (h : Carries c p c') : Meets (fun L b => Sound c L b ∧ b = b₀) p fun _ => Sound c' :=
  h.imp (fun _ _ hb => hb.1) fun _ _ _ => id

theorem pure (a : α) : Carries c (fun _ => (Pure.pure a : Parser α)) c := Meets.pure fun _ _ => id

theorem bind {f : α → Nat → Parser β} {c'' : Bool} (hp : Carries c p c')
    (hf : ∀ a, Carries c' (f a) c'') : Carries c (fun base => p base >>= fun a => f a base) c'' :=
  Meets.bind hp hf

theorem get_bind {f : Builder → Nat → Parser α} (h : ∀ b, Carries c (f b) c') :
    Carries c (fun base => get >>= fun b => f b base) c' :=
  Meets.get_bind fun b => (h b).pinned

theorem ite {d : Prop} [Decidable d] {q : Nat → Parser α} (hp : Carries c p c') (hq : Carries c q c') :
    Carries c (fun base => if d then p base else q base) c' :=
  Meets.ite (fun _ => hp) fun _ => hq

theorem when {d : Prop} [Decidable d] {p : Nat → Parser Unit} {f : Unit → Nat → Parser β}
    (hp : Carries c p c) (hf : ∀ u, Carries c (f u) c') :
    Carries c (fun base => if d then p base >>= fun u => f u base else f () base) c' :=
  .ite (hp.bind hf) (hf ())

/-- As `when`, where it does not matter what the part leaves. -/
theorem whenever {d : Prop} [Decidable d] {p : Nat → Parser Unit} {f : Unit → Nat → Parser β}
    (hp : Carries c p false) (hf : ∀ u c, Carries c (f u) c') :
    Carries c (fun base => if d then p base >>= fun u => f u base else f () base) c' :=
  .ite (hp.bind fun u => hf u false) (hf () c)

theorem loop {step : Nat → Parser Bool} (h : Carries c step c) :
    Carries c (fun base => loop (step base)) c :=
  Maintains.loop h

/-- A loop each step of which closes what it leaves. -/
theorem loop_closes {step : Nat → Parser Bool} (h : Carries c step true) :
    Carries c (fun base => Parser.loop (step base)) true := by
  refine Meets.loop (h.imp (fun _ _ => id) fun go L b hb => ?_)
  cases go with
  | false => exact hb
  | true => exact hb.of_true

theorem loopWhile {go : Builder → Bool} {body : Nat → Parser Unit} (h : Carries c body c) :
    Carries c (fun base => loopWhile go (body base)) c :=
  Maintains.loopWhile h

theorem progress {body : Parser Unit} (h : Carries c (fun _ => body) c') :
    Carries c (fun _ => progress body) c' :=
  Meets.progress h

/-- What has been spoiled stays so. -/
theorem spoiled (h : Carries c p c') :
    Meets (fun _ b => b.lastReport ≠ none) p fun _ _ b => b.lastReport ≠ none := by
  intro base b htidy hle hb a b' heq
  obtain ⟨hframe, -⟩ := h base b htidy hle (fun hclean => absurd hclean hb) a b' heq
  exact ⟨hframe, fun hclean => hb (hframe.clean hclean)⟩

end Carries

theorem Begins.bind {f : α → Nat → Parser β} (hp : Begins c p) (hf : ∀ a, Carries true (f a) true) :
    Begins c fun base => p base >>= fun a => f a base :=
  Meets.bind hp hf

theorem Begins.get_bind {f : Builder → Nat → Parser α} (h : ∀ b, Begins c (f b)) :
    Begins c fun base => get >>= fun b => f b base :=
  Meets.get_bind fun b => (h b).imp (fun _ _ hb => hb.1) fun _ _ _ => id

theorem Begins.ite {d : Prop} [Decidable d] {q : Nat → Parser α} (hp : Begins c p)
    (hq : Begins c q) : Begins c fun base => if d then p base else q base :=
  Meets.ite (fun _ => hp) fun _ => hq

theorem Begins.pinned (h : Begins c p) (hb : b₀.atEnd = false) :
    Meets (fun L b => Sound c L b ∧ b = b₀) p fun _ => Sound true :=
  h.imp (fun _ _ hpin => ⟨hpin.1, hpin.2 ▸ hb⟩) fun _ _ _ => id

/-! ### Tokens -/

theorem sound_advance {l : Lexeme} {blanks : List Tree} {id : Nat} (h : Sound c L b)
    (hblanks : ∀ x ∈ blanks, x.isTrivia = true) (htidy : l.Tidy) :
    Sound true (L ++ (blanks ++ [.token id l.token])) b.advance := by
  intro hclean
  rw [lastReport_advance] at hclean
  refine ⟨(h hclean).1.append ((orderly_blanks hblanks).append (orderly_token _)), fun _ => ?_⟩
  exact (closed_token htidy.token).append.append

theorem advance_begins : Begins c fun _ => advance := by
  apply Meets.advance
  · exact fun L b l rest blanks id hb _ hblanks htidy => sound_advance hb.1 hblanks htidy
  · rintro L b ⟨-, hend⟩ hahead
    simp [atEnd, hahead] at hend

theorem report_spoils {P : Assertion} {q : Problem} :
    Meets P (fun _ => report q) fun _ _ b => b.lastReport ≠ none :=
  Meets.report fun _ _ _ => by simp [lastReport_report]

/-- Once a problem has been found nothing more is said. -/
theorem of_spoiled {P K : Assertion} (h : Meets P p fun _ _ b => b.lastReport ≠ none) :
    Meets P p fun _ L b => b.lastReport = none → K L b :=
  h.imp (fun _ _ => id) fun _ _ _ hspoiled hclean => absurd hclean hspoiled

theorem report_carries {q : Problem} : Carries c (fun _ => report q) c' := of_spoiled report_spoils

theorem steady_sound : Steady (Sound c) where
  advance := by
    apply Meets.advance
    · exact fun L b l rest blanks id hb _ hblanks htidy => (sound_advance hb hblanks htidy).of_true
    · exact fun L b hb _ => hb
  report _ := report_carries

theorem advance_carries : Carries c (fun _ => advance) c := steady_sound.advance

theorem accept_meets {k : TokenKind} :
    Meets (Sound c) (fun _ => accept k) fun taken => Sound (taken || c) := by
  refine .get_bind fun b₀ => .ite (fun hat => ?_) fun _ => ?_
  · exact (advance_begins.pinned (atEnd_of_isAt hat)).bind fun _ => .pure fun _ _ => id
  · exact .pure fun _ _ hb => hb.1

theorem acceptKeyword_meets {w : String} :
    Meets (Sound c) (fun _ => acceptKeyword w) fun taken => Sound (taken || c) := by
  refine .get_bind fun b₀ => .ite (fun hat => ?_) fun _ => ?_
  · exact (advance_begins.pinned (atEnd_of_isKeyword hat)).bind fun _ => .pure fun _ _ => id
  · exact .pure fun _ _ hb => hb.1

theorem accept_carries {k : TokenKind} : Carries c (fun _ => accept k) c := steady_sound.accept

theorem skipOptional_carries {k : TokenKind} : Carries c (fun _ => skipOptional k) c :=
  steady_sound.skipOptional

theorem expect?_carries {k : TokenKind} {text : String} : Carries c (fun _ => expect? k text) true := by
  refine accept_meets.bind fun taken => ?_
  cases taken with
  | true => exact .pure fun _ _ => id
  | false => exact report_carries.bind fun _ => .pure _

theorem expect_carries {k : TokenKind} {text : String} : Carries c (fun _ => expect k text) true :=
  expect?_carries.bind fun _ => .pure _

theorem expectKeyword_carries {w : String} : Carries c (fun _ => expectKeyword w) true := by
  refine acceptKeyword_meets.bind fun taken => ?_
  cases taken with
  | true => exact .pure fun _ _ => id
  | false => exact report_carries

theorem endStatement_carries : Carries c (fun _ => endStatement) c := steady_sound.endStatement

/-! ### Phrases -/

section

variable {K : List Token → Builder → Prop}

theorem finish_upholds {kind : PhraseKind} (hkind : kind.isPlain = true)
    (hK : ∀ ts b mark, K ts b → K ts (b.finish kind mark)) :
    Meets (Upholds K) (fun base => finish kind base) fun _ => Upholds K := by
  apply Meets.finish
  intro L b base id pos stop hb hclean
  simp only [PhraseKind.isPlain, Bool.and_eq_true, Bool.not_eq_true'] at hkind
  obtain ⟨horderly, htokens⟩ := hb hclean
  refine ⟨orderly_nil.concat_phrase (hkind.2 ▸ horderly) ?_ ?_, ?_⟩
  · simp [hkind.1]
  · simp [hkind.2]
  · simpa [tokensList, tokens] using hK _ _ _ htokens

/-- A new mark, where `C` does not look at blank text and `K` not at the first tokens. -/
theorem mark_upholds {f : Nat → Parser α} {C : Builder → Prop} (hC : ∀ b, C b → C b.flush)
    (hK : ∀ ts ts' b, K ts b → K (ts' ++ ts) b)
    (h : Meets (fun L b => Sound false L b ∧ C b) f fun _ => Upholds K) :
    Meets (fun L b => Sound c L b ∧ C b) (fun _ => mark >>= f) fun _ => Upholds K := by
  apply Meets.mark_bind
  rintro L b blanks ⟨hb, hbC⟩ hblanks
  apply h.imp
  · rintro _ _ ⟨rfl, rfl⟩
    exact ⟨fun _ => ⟨orderly_nil, by simp⟩, hC b hbC⟩
  · intro a L' b' hb' hstill hclean
    obtain ⟨horderly, htokens⟩ := hb' hclean
    refine ⟨((hb (hstill hclean)).1.append (orderly_blanks hblanks)).append horderly, ?_⟩
    rw [tokensList_append]
    exact hK _ _ _ htokens

/-- As `mark_upholds`, without a condition. -/
theorem marked_upholds {f : Nat → Parser α} (hK : ∀ ts ts' b, K ts b → K (ts' ++ ts) b)
    (h : Meets (Sound false) f fun _ => Upholds K) :
    Meets (Sound c) (fun _ => mark >>= f) fun _ => Upholds K := by
  have hmarked := mark_upholds (c := c) (C := fun _ => True) (fun _ => id) hK
    (h.imp (fun _ _ hb => hb.1) fun _ _ _ => id)
  exact hmarked.imp (fun _ _ hb => ⟨hb, trivial⟩) fun _ _ _ => id

end

theorem finish_carries {kind : PhraseKind} (hkind : kind.isPlain = true) :
    Carries c (fun base => finish kind base) c :=
  finish_upholds hkind fun _ _ _ => id

theorem Carries.marked {f : Nat → Parser α} (h : Carries false f c') :
    Carries c (fun _ => mark >>= f) c' :=
  marked_upholds (fun _ _ _ hends hc => (hends hc).append) h

theorem Carries.phrase {kind : PhraseKind} {body : Parser Unit} (hkind : kind.isPlain = true)
    (h : Carries false (fun _ => body) c') : Carries c (fun _ => phrase kind body) c' :=
  .marked (h.bind fun _ => finish_carries hkind)

theorem Begins.marked {f : Nat → Parser α} (h : Begins false f) : Begins c fun _ => mark >>= f :=
  mark_upholds (fun b hb => by simpa using hb) (fun _ _ _ hends hc => (hends hc).append) h

theorem Begins.phrase {kind : PhraseKind} {body : Parser Unit} (hkind : kind.isPlain = true)
    (h : Begins false fun _ => body) : Begins c fun _ => phrase kind body :=
  .marked (h.bind fun _ => finish_carries hkind)

theorem skipToken_spoils {P : Assertion} {q : Problem} :
    Meets P (fun _ => skipToken q) fun _ _ b => b.lastReport ≠ none := by
  have hphrase : Carries false (fun _ => phrase .error advance) false := .phrase rfl advance_carries
  exact report_spoils.bind fun _ => hphrase.spoiled

theorem skipToken_carries {q : Problem} : Carries c (fun _ => skipToken q) c' :=
  of_spoiled skipToken_spoils

theorem Carries.nested {construct : Construct} {body : Parser Unit} (h : Carries c (fun _ => body) c') :
    Carries c (fun _ => nested construct body) c' := by
  refine Meets.nested ?_ (h.imp ?_ fun _ _ _ => id)
  · exact report_spoils.bind fun _ => of_spoiled skipToken_spoils
  · rintro L b ⟨d, -, -, hb⟩
    exact hb

/-! ### What is added as a whole -/

/-- Nothing is added, or something closed behind blank text that may start a list. -/
def Added (L₀ L : List Tree) : Prop :=
  L = L₀ ∨ ∃ blanks L', L = L₀ ++ blanks ++ L' ∧ (∀ x ∈ blanks, x.isTrivia = true) ∧
    Orderly true L' ∧ Closed L'

theorem Added.orderly {inList : Bool} {L₀ : List Tree} (h : Added L₀ L) (horderly : Orderly inList L₀)
    (hadmits : Admits inList L₀) : L = L₀ ∨ Orderly inList L ∧ Closed L := by
  rcases h with hsame | ⟨blanks, L', rfl, hblanks, horderly', hclosed'⟩
  · exact .inl hsame
  · have hadmits' : Admits inList (L₀ ++ blanks) := hadmits.append (admits_blanks hblanks)
    exact .inr ⟨(horderly.append (orderly_blanks hblanks)).append_admits hadmits' horderly',
      hclosed'.append⟩

/-- Where `C` holds and no problem is found, something is added as a whole. -/
def Appends (C : Builder → Prop) (p : Parser Unit) : Prop :=
  ∀ L₀, Meets (fun L b => L = L₀ ∧ C b) (fun _ => p) fun _ L b => b.lastReport = none → Added L₀ L

/-- In a list, everything so far is closed. -/
def Listed : Assertion := fun L b => b.lastReport = none → Orderly true L ∧ (L = [] ∨ Closed L)

namespace Appends

variable {C C' : Builder → Prop} {p q : Parser Unit}

theorem imp (h : Appends C p) (hC : ∀ b, C' b → C b) : Appends C' p :=
  fun L₀ => (h L₀).imp (fun _ b hb => ⟨hb.1, hC b hb.2⟩) fun _ _ _ => id

theorem pure : Appends C (Pure.pure ()) :=
  fun _ => Meets.pure fun _ _ hb _ => .inl hb.1

theorem ite {d : Prop} [Decidable d] (hp : Appends C p) (hq : Appends C q) :
    Appends C (if d then p else q) :=
  fun L₀ => Meets.ite (fun _ => hp L₀) fun _ => hq L₀

theorem get_bind {f : Builder → Parser Unit} (h : ∀ b, C b → Appends C (f b)) :
    Appends C (get >>= f) := by
  intro L₀ base b htidy hle hb a b' heq
  exact h b hb.2 L₀ base b htidy hle hb a b' heq

theorem get_bind_pinned {f : Builder → Parser Unit} (h : ∀ b, Appends (· = b) (f b)) :
    Appends C (get >>= f) := by
  intro L₀ base b htidy hle hb a b' heq
  exact h b L₀ base b htidy hle ⟨hb.1, rfl⟩ a b' heq

theorem phrase {kind : PhraseKind} {body : Parser Unit} (hkind : kind.isList = false)
    (hC : ∀ b, C b → C b.flush)
    (h : Meets (fun L b => Sound false L b ∧ C b) (fun _ => body) fun _ => Sound true) :
    Appends C (phrase kind body) := by
  intro L₀
  apply Meets.mark_bind
  rintro _ b blanks ⟨rfl, hb⟩ hblanks
  have hbody : Meets (fun L' b' => L' = [] ∧ b' = b.flush) (fun _ => body) fun _ => Sound true := by
    refine h.imp ?_ fun _ _ _ => id
    rintro _ _ ⟨rfl, rfl⟩
    exact ⟨fun _ => ⟨orderly_nil, by simp⟩, hC b hb⟩
  refine hbody.bind fun _ => Meets.finish fun L b' base id pos stop hb' _ hclean => .inr ?_
  obtain ⟨horderly, hclosed⟩ := hb' hclean
  refine ⟨blanks, _, rfl, hblanks, ?_, closed_phrase.2 (hclosed rfl)⟩
  refine orderly_nil.concat_phrase (hkind ▸ horderly) (fun _ => ?_) (by simp [hkind])
  exact ⟨(hclosed rfl).ne_nil, admits_nil⟩

/-- A phrase that is closed at its end. -/
theorem phrase_of_carries {kind : PhraseKind} {body : Parser Unit} (hkind : kind.isList = false)
    (h : Carries false (fun _ => body) true) : Appends C (Parser.phrase kind body) := by
  have hphrase : Appends (fun _ => True) (Parser.phrase kind body) :=
    .phrase hkind (fun _ => id) (h.imp (fun _ _ hb => hb.1) fun _ _ _ => id)
  exact hphrase.imp fun _ _ => trivial

theorem phrase_of_begins {kind : PhraseKind} {body : Parser Unit} (hkind : kind.isList = false)
    (h : Begins false fun _ => body) : Appends (fun b => b.atEnd = false) (Parser.phrase kind body) :=
  .phrase hkind (fun b hb => by simpa using hb) h

theorem nested {construct : Construct} {body : Parser Unit} (h : Appends (fun _ => True) body) :
    Appends (fun _ => True) (nested construct body) := by
  intro L₀
  refine Meets.nested ?_ ((h L₀).imp ?_ fun _ _ _ => id)
  · exact report_spoils.bind fun _ => of_spoiled skipToken_spoils
  · rintro L b ⟨d, -, -, hb⟩
    exact hb

/-- Behind what is closed, all is closed again. -/
theorem carries (h : Appends (fun _ => True) p) : Carries true (fun _ => p) true := by
  intro base b htidy hle hb a b' heq
  obtain ⟨hframe, hadded⟩ := h _ base b htidy hle ⟨rfl, trivial⟩ a b' heq
  refine ⟨hframe, fun hclean => ?_⟩
  obtain ⟨horderly, hclosed⟩ := hb (hframe.clean hclean)
  have hadmits : Admits false (b.forest base) := Closed.admits (hclosed rfl)
  rcases (hadded hclean).orderly horderly hadmits with hsame | ⟨horderly', hclosed'⟩
  · rw [hsame]
    exact ⟨horderly, hclosed⟩
  · exact ⟨horderly', fun _ => hclosed'⟩

theorem listed (h : Appends (fun _ => True) p) : Maintains Listed fun _ => p := by
  intro base b htidy hle hb a b' heq
  obtain ⟨hframe, hadded⟩ := h _ base b htidy hle ⟨rfl, trivial⟩ a b' heq
  refine ⟨hframe, fun hclean => ?_⟩
  obtain ⟨horderly, hclosed⟩ := hb (hframe.clean hclean)
  have hadmits : Admits true (b.forest base) := by
    rcases hclosed with hnil | hclosed
    · rw [hnil]
      exact admits_nil
    · exact hclosed.admits
  rcases (hadded hclean).orderly horderly hadmits with hsame | ⟨horderly', hclosed'⟩
  · rw [hsame]
    exact ⟨horderly, hclosed⟩
  · exact ⟨horderly', .inr hclosed'⟩

end Appends

/-- A list behind what is closed. -/
theorem Carries.listPhrase {kind : PhraseKind} {body : Parser Unit} (hkind : kind.isList = true)
    (h : Meets (fun L _ => L = []) (fun _ => body) fun _ L b =>
      b.lastReport = none → Orderly true L ∧ (c' = true → L = [] ∨ Closed L)) :
    Carries true (fun _ => listPhrase kind body) c' := by
  apply Meets.listPhrase
  intro L b hb
  refine h.imp (fun _ _ hL => hL.1) fun _ L' b' hL' hstill id pos stop start hclean => ?_
  obtain ⟨horderly, hclosed⟩ := hb (hstill hclean)
  obtain ⟨horderly', hclosed'⟩ := hL' hclean
  have hdeclaration : kind.isDeclaration = false := by
    cases kind <;> first | rfl | cases hkind
  refine ⟨horderly.concat_phrase (hkind ▸ horderly') (by simp [hdeclaration]) fun _ => hclosed rfl,
    fun hc => ?_⟩
  rcases hclosed' hc with rfl | hclosed'
  · exact closed_append_empty (hclosed rfl)
  · exact (closed_phrase.2 hclosed').append

end Parser

end ArrayShapes.Syntax
