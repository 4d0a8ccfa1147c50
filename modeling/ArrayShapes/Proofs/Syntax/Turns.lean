import ArrayShapes.Proofs.Syntax.Contract

/-!
Turns on the way down a tree: steps to a child other than the first one that is not blank. Loops of the
grammar wrap what is there already as a first child; all other steps come from a rule that refers to
another one. Some of these references do not count as nesting, so the steps they lead to are not
counted here either.
-/

namespace ArrayShapes.Syntax

namespace Tree

/-- A keyword that takes an operand as loose as an assignment. -/
def isLooseKeyword : Tree → Bool
  | .token _ t => t.kind = .name && Grammar.looseKeywords.contains (Text.lower t.text)
  | .phrase .. => false

/-- Whether a phrase with these children refers to a child without entering a deeper level. -/
def isUnguarded (kind : PhraseKind) (children : List Tree) (c : Tree) : Bool :=
  match kind with
  | .simpleAssignmentExpression | .compoundAssignmentExpression | .ternaryExpression
  | .coalesceExpression => true
  | .unaryOpExpression => (children.find? (!·.isTrivia)).any isLooseKeyword
  | .simpleVariable => c.phraseKind? == some .simpleVariable
  | .typeDeclaration => c.phraseKind? == some .typeDeclaration
  | _ => false

mutual

/-- The most turns on a way down from the root of a tree, unguarded ones not counted. -/
def turns : Tree → Nat
  | .token .. => 0
  | .phrase _ kind _ _ cs => turnsList (isUnguarded kind cs) true cs

/-- The most turns on a way down that starts with a step to one of these children. Steps to those
that are `free` are not counted; `leading` tells whether only blank text stands in front. -/
def turnsList (free : Tree → Bool) (leading : Bool) : List Tree → Nat
  | [] => 0
  | c :: cs =>
    max (c.turns + if (leading && !c.isTrivia) || free c then 0 else 1)
      (turnsList free (leading && c.isTrivia) cs)

end

/-- The most turns below children none of which is free. -/
def weight (cs : List Tree) : Nat := turnsList (fun _ => false) true cs

variable {free : Tree → Bool} {leading : Bool} {k : Nat}

theorem turns_le_turnsList {c : Tree} {cs : List Tree} (hc : c ∈ cs) :
    c.turns ≤ turnsList free leading cs := by
  induction cs generalizing leading with
  | nil => simp at hc
  | cons d cs ih =>
      rw [turnsList]
      cases hc with
      | head => omega
      | tail _ hc =>
          have hle : c.turns ≤ turnsList free (leading && d.isTrivia) cs := ih hc
          omega

theorem turnsList_le_of_forall {cs : List Tree}
    (h : ∀ c ∈ cs, c.turns + (if free c then 0 else 1) ≤ k) : turnsList free leading cs ≤ k := by
  induction cs generalizing leading with
  | nil => simp [turnsList]
  | cons c cs ih =>
      obtain ⟨hc, hcs⟩ := List.forall_mem_cons.1 h
      rw [turnsList, Nat.max_le]
      refine ⟨?_, ih hcs⟩
      cases hfree : free c with
      | true => simpa [hfree] using hc
      | false =>
          simp only [hfree, Bool.false_eq_true, if_false] at hc
          split <;> omega

theorem turnsList_le_weight (cs : List Tree) :
    turnsList free leading cs ≤ turnsList (fun _ => false) leading cs := by
  induction cs generalizing leading with
  | nil => simp [turnsList]
  | cons c cs ih =>
      rw [turnsList, turnsList]
      have htail : turnsList free (leading && c.isTrivia) cs ≤
        turnsList (fun _ => false) (leading && c.isTrivia) cs := ih
      have hhead : (if (leading && !c.isTrivia) || free c then 0 else 1) ≤
          if (leading && !c.isTrivia) || false then 0 else 1 := by
        cases leading && !c.isTrivia <;> cases free c <;> simp
      omega

theorem turns_phrase_le_weight (id pos stop : Nat) (kind : PhraseKind) (cs : List Tree) :
    (phrase id kind pos stop cs).turns ≤ weight cs := by
  rw [turns]
  exact turnsList_le_weight cs

theorem weight_append_le {cs ds : List Tree} (hcs : weight cs ≤ k)
    (hds : ∀ d ∈ ds, d.turns + 1 ≤ k) : weight (cs ++ ds) ≤ k := by
  rw [weight] at hcs ⊢
  generalize true = leading at hcs ⊢
  induction cs generalizing leading with
  | nil => exact turnsList_le_of_forall (by simpa using hds)
  | cons c cs ih =>
      rw [turnsList, Nat.max_le] at hcs
      rw [List.cons_append, turnsList, Nat.max_le]
      exact ⟨hcs.1, ih _ hcs.2⟩

theorem weight_singleton_phrase (id pos stop : Nat) (kind : PhraseKind) (cs : List Tree) :
    weight [phrase id kind pos stop cs] = (phrase id kind pos stop cs).turns := by
  simp [weight, turnsList, isTrivia, tokenKind?]

end Tree

namespace Parser

open Builder

variable {α β : Type} {d k k' : Nat} {ok ok' : Tree → Prop} {p : Parser α}

/-! ### What is left behind the mark -/

/-- At depth `d`, the nodes behind the mark make a phrase with at most `k` turns. -/
def Weighs (d k : Nat) : Assertion := fun L b => Tree.weight L ≤ k ∧ b.depth = d

/-- At depth `d`, there are only nodes of which `ok` holds behind those of `L₀`. -/
def Grown (d : Nat) (ok : Tree → Prop) (L₀ : List Tree) : Assertion :=
  fun L b => (∃ xs, L = L₀ ++ xs ∧ ∀ x ∈ xs, ok x) ∧ b.depth = d

/-- A phrase around what is behind the mark has at most `k` turns, before and after. -/
abbrev Within (d k : Nat) (p : Nat → Parser α) : Prop := Maintains (Weighs d k) p

/-- All that is left are nodes of which `ok` holds. -/
def Emits (d : Nat) (ok : Tree → Prop) (p : Parser α) : Prop :=
  ∀ L₀, Maintains (Grown d ok L₀) fun _ => p

def AtMost (k : Nat) (t : Tree) : Prop := t.turns ≤ k

/-- Nodes that a phrase of this kind with at most `k` turns may have as children. -/
def Fits (kind : PhraseKind) (k : Nat) (t : Tree) : Prop :=
  t.turns + (if Tree.isUnguarded kind [] t then 0 else 1) ≤ k

theorem atMost_token (id : Nat) (t : Token) : AtMost k (.token id t) := by
  simp [AtMost, Tree.turns]

theorem fits_token {kind : PhraseKind} (id : Nat) (t : Token) : Fits kind (k + 1) (.token id t) := by
  simp only [Fits, Tree.turns]
  split <;> omega

theorem AtMost.mono {t : Tree} (h : AtMost k t) (hk : k ≤ k') : AtMost k' t := Nat.le_trans h hk

theorem AtMost.fits {kind : PhraseKind} {t : Tree} (h : AtMost k t) (hk : k < k') :
    Fits kind k' t := by
  simp only [AtMost, Fits] at h ⊢
  split <;> omega

theorem Fits.atMost {kind : PhraseKind} {t : Tree} (h : Fits kind k t) : AtMost k t :=
  Nat.le_trans (Nat.le_add_right _ _) h

theorem steady_grown {L₀ : List Tree} (htoken : ∀ id t, ok (.token id t)) :
    Steady (Grown d ok L₀) where
  advance := by
    apply Meets.advance
    · rintro L b l rest blanks id ⟨⟨xs, rfl, hxs⟩, hd⟩ - hblanks -
      refine ⟨⟨xs ++ (blanks ++ [.token id l.token]), by simp, fun x hx => ?_⟩, by simpa using hd⟩
      simp only [List.mem_append, List.mem_singleton] at hx
      rcases hx with hx | hx | rfl
      · exact hxs x hx
      · obtain ⟨id, t, rfl, -⟩ := Tree.eq_token_of_isTrivia (hblanks x hx)
        exact htoken id t
      · exact htoken id l.token
    · exact fun L b hb _ => hb
  report q := Meets.report fun L b hb => ⟨hb.1, by simpa using hb.2⟩

theorem Within.finish {kind : PhraseKind} : Within d k fun base => finish kind base := by
  apply Meets.finish
  rintro L b base id pos stop ⟨hL, hd⟩
  rw [Weighs, Tree.weight_singleton_phrase]
  exact ⟨Nat.le_trans (Tree.turns_phrase_le_weight id pos stop kind L) hL, hd⟩

theorem Weighs.grown {L : List Tree} {b : Builder} (h : Weighs d k L b) :
    Grown d (AtMost k) [] L b :=
  ⟨⟨L, rfl, fun _ hx => Nat.le_trans (Tree.turns_le_turnsList hx) h.1⟩, h.2⟩

/-- Where no step down to a child counts, a phrase has no more turns than its children. -/
theorem finish_free {kind : PhraseKind} (hfree : ∀ cs c, Tree.isUnguarded kind cs c = true) :
    Meets (Grown d (AtMost k) []) (fun base => finish kind base) fun _ => Weighs d k := by
  apply Meets.finish
  rintro L b base id pos stop ⟨⟨_, rfl, hL⟩, hd⟩
  rw [Weighs, Tree.weight_singleton_phrase, Tree.turns]
  refine ⟨Tree.turnsList_le_of_forall fun c hc => ?_, hd⟩
  rw [if_pos (hfree L c)]
  exact hL c hc

theorem finish_free_grown {kind : PhraseKind} (hfree : ∀ cs c, Tree.isUnguarded kind cs c = true) :
    Maintains (Grown d (AtMost k) []) fun base => finish kind base :=
  (finish_free hfree).imp (fun _ _ => id) fun _ _ _ hb => hb.grown

theorem finish_fits {kind : PhraseKind}
    (hself : ∀ id pos stop cs, Tree.isUnguarded kind [] (.phrase id kind pos stop cs) = true)
    (hkind : ∀ cs c, Tree.isUnguarded kind cs c = Tree.isUnguarded kind [] c) :
    Maintains (Grown d (Fits kind k) []) fun base => finish kind base := by
  apply Meets.finish
  rintro L b base id pos stop ⟨⟨_, rfl, hL⟩, hd⟩
  refine ⟨⟨_, rfl, fun x hx => ?_⟩, hd⟩
  rw [List.mem_singleton.1 hx, Fits, if_pos (hself id pos stop _), Tree.turns]
  refine Tree.turnsList_le_of_forall fun c hc => ?_
  rw [hkind L c]
  exact hL c hc

/-- Behind a new mark there is nothing at first, and `C` holds there if it does not look at blank
text. -/
theorem Grown.mark_bind {f : Nat → Parser α} {C : Builder → Prop} {L₀ : List Tree}
    (htoken : ∀ id t, ok (.token id t)) (hC : ∀ b, C b → C b.flush)
    (h : Meets (fun L b => L = [] ∧ b.depth = d ∧ C b) f fun _ => Grown d ok []) :
    Meets (fun L b => Grown d ok L₀ L b ∧ C b) (fun _ => mark >>= f) fun _ => Grown d ok L₀ := by
  apply Meets.mark_bind
  rintro _ b blanks ⟨⟨⟨xs, rfl, hxs⟩, hd⟩, hb⟩ hblanks
  apply h.imp
  · rintro _ _ ⟨rfl, rfl⟩
    exact ⟨rfl, by simpa using hd, hC b hb⟩
  · rintro a L b' ⟨⟨_, rfl, hL⟩, hd'⟩ -
    refine ⟨⟨xs ++ blanks ++ L, by simp, fun x hx => ?_⟩, hd'⟩
    simp only [List.mem_append] at hx
    rcases hx with (hx | hx) | hx
    · exact hxs x hx
    · obtain ⟨id, t, rfl, -⟩ := Tree.eq_token_of_isTrivia (hblanks x hx)
      exact htoken id t
    · exact hL x hx

namespace Emits

theorem mono (h : Emits d ok p) (hok : ∀ x, ok x → ok' x) : Emits d ok' p := by
  intro L₀ base b htidy hle hb a b' heq
  -- only what is added from here on has the stronger property
  obtain ⟨⟨xs, hxs, hall⟩, hd⟩ := hb
  obtain ⟨hframe, ⟨ys, hys, hnew⟩, hd'⟩ :=
    h (b.forest base) base b htidy hle ⟨⟨[], by simp, by simp⟩, hd⟩ a b' heq
  refine ⟨hframe, ⟨xs ++ ys, by rw [hys, hxs, List.append_assoc], fun x hx => ?_⟩, hd'⟩
  rcases List.mem_append.1 hx with hx | hx
  · exact hall x hx
  · exact hok x (hnew x hx)

/-- What nodes do that satisfy `ok`, any parser does that leaves only such nodes. -/
theorem maintains {I : Assertion} (h : Emits d ok p) (hdepth : ∀ L b, I L b → b.depth = d)
    (hI : ∀ L b xs b', I L b → (∀ x ∈ xs, ok x) → b'.depth = d → I (L ++ xs) b') :
    Maintains I fun _ => p := by
  intro base b htidy hle hb a b' heq
  obtain ⟨hframe, ⟨xs, hxs, hnew⟩, hd'⟩ :=
    h (b.forest base) base b htidy hle ⟨⟨[], by simp, by simp⟩, hdepth _ _ hb⟩ a b' heq
  refine ⟨hframe, ?_⟩
  change I (b'.forest base) b'
  rw [hxs]
  exact hI _ _ xs b' hb hnew hd'

theorem within (h : Emits d (AtMost k) p) (hk : k < k') : Within d k' fun _ => p := by
  refine h.maintains (fun L b hb => hb.2) fun L b xs b' hb hxs hd => ?_
  exact ⟨Tree.weight_append_le hb.1 fun x hx => Nat.lt_of_le_of_lt (hxs x hx) hk, hd⟩

theorem weaken (h : Emits d (AtMost k) p) (hk : k ≤ k') : Emits d (AtMost k') p :=
  h.mono fun _ hx => hx.mono hk

theorem advance : Emits d (AtMost k) advance := fun _ => (steady_grown atMost_token).advance

theorem report (q : Problem) : Emits d (AtMost k) (report q) :=
  fun _ => (steady_grown atMost_token).report q

theorem flush : Emits d (AtMost k) (modify Builder.flush) := by
  intro L₀
  apply Meets.flush
  rintro L b blanks ⟨⟨xs, rfl, hxs⟩, hd⟩ hblanks
  refine ⟨⟨xs ++ blanks, by simp, fun x hx => ?_⟩, by simpa using hd⟩
  rcases List.mem_append.1 hx with hx | hx
  · exact hxs x hx
  · obtain ⟨id, t, rfl, -⟩ := Tree.eq_token_of_isTrivia (hblanks x hx)
    exact atMost_token id t

theorem pure (a : α) : Emits d ok (Pure.pure a : Parser α) := fun _ => .pure a

theorem bind {f : α → Parser β} (hp : Emits d ok p) (hf : ∀ a, Emits d ok (f a)) :
    Emits d ok (p >>= f) :=
  fun L₀ => (hp L₀).bind fun a => hf a L₀

theorem get_bind {f : Builder → Parser α} (h : ∀ b, Emits d ok (f b)) :
    Emits d ok (get >>= f) :=
  fun L₀ => .get_bind fun b => h b L₀

theorem ite {c : Prop} [Decidable c] {q : Parser α} (hp : Emits d ok p) (hq : Emits d ok q) :
    Emits d ok (if c then p else q) :=
  fun L₀ => .ite (hp L₀) (hq L₀)

theorem mark_bind {f : Nat → Parser α} (htoken : ∀ id t, ok (.token id t))
    (h : Maintains (Grown d ok []) f) : Emits d ok (mark >>= f) := by
  intro L₀
  refine (Grown.mark_bind (C := fun _ => True) htoken (fun _ => id) (h.imp ?_ fun _ _ _ => id)).imp
    (fun _ _ hb => ⟨hb, trivial⟩) fun _ _ _ => id
  rintro _ b ⟨rfl, hd, -⟩
  exact ⟨⟨[], rfl, by simp⟩, hd⟩

/-- Nodes behind a new mark have at most as many turns as a phrase around them. -/
theorem marked {f : Nat → Parser α} (h : Within d k f) : Emits d (AtMost k) (mark >>= f) := by
  intro L₀
  refine (Grown.mark_bind (C := fun _ => True) atMost_token (fun _ => id)
    (h.imp ?_ fun _ _ _ hb => hb.grown)).imp (fun _ _ hb => ⟨hb, trivial⟩) fun _ _ _ => id
  rintro _ b ⟨rfl, hd, -⟩
  exact ⟨by simp [Tree.weight, Tree.turnsList], hd⟩

theorem phrase {kind : PhraseKind} {body : Parser Unit} (h : Within d k fun _ => body) :
    Emits d (AtMost k) (phrase kind body) :=
  marked (h.bind fun _ => Within.finish)

theorem listPhrase {kind : PhraseKind} {body : Parser Unit} (h : Within d k fun _ => body) :
    Emits d (AtMost k) (listPhrase kind body) := by
  intro L₀
  apply Meets.listPhrase
  rintro _ b ⟨⟨xs, rfl, hxs⟩, hd⟩
  apply h.imp
  · rintro _ _ ⟨rfl, rfl⟩
    exact ⟨by simp [Tree.weight, Tree.turnsList], hd⟩
  · rintro _ L b' ⟨hL, hd'⟩ - id pos stop start
    refine ⟨⟨xs ++ [.phrase id kind pos stop L], by simp, fun x hx => ?_⟩, hd'⟩
    rcases List.mem_append.1 hx with hx | hx
    · exact hxs x hx
    · rw [List.mem_singleton.1 hx]
      exact Nat.le_trans (Tree.turns_phrase_le_weight id pos stop kind L) hL

theorem skipToken {q : Problem} : Emits d (AtMost 1) (skipToken q) :=
  (Emits.report q).bind fun _ => .phrase (Emits.advance.within (k := 0) Nat.one_pos)

/-- What is left one level deeper is left here too. -/
theorem nested {construct : Construct} {body : Parser Unit} (hk : 1 ≤ k)
    (h : d < maxDepth → Emits (d + 1) (AtMost k) body) :
    Emits d (AtMost k) (nested construct body) := by
  intro L₀
  apply Meets.nested
  · have herror : Emits d (AtMost k) (Parser.report .nestingTooDeep >>= fun _ =>
        Parser.skipToken (.missing construct)) :=
      (Emits.report _).bind fun _ => skipToken.weaken hk
    exact (herror L₀).imp (fun _ _ hb => hb.1) fun _ _ _ => id
  · intro base b htidy hle hb a b' heq
    obtain ⟨e, he, hdepth, hgrown, rfl⟩ := hb
    obtain ⟨hframe, hgrown', hd'⟩ := h he L₀ base b htidy hle ⟨hgrown, hdepth⟩ a b' heq
    exact ⟨hframe, hgrown', by simp [hd']⟩

end Emits

theorem steady_weighs : Steady (Weighs d (k + 1)) where
  advance := Emits.advance.within (Nat.succ_pos k)
  report q := (Emits.report q).within (Nat.succ_pos k)

/-! ### Behind a loose keyword -/

/-- The first of the nodes behind the mark is a loose keyword, and none has more than `k` turns. -/
def Led (d k : Nat) : Assertion := fun L b =>
  (L.find? (!·.isTrivia)).any Tree.isLooseKeyword = true ∧ Grown d (AtMost k) [] L b

theorem Emits.led (h : Emits d (AtMost k) p) : Maintains (Led d k) fun _ => p := by
  refine h.maintains (fun L b hb => hb.2.2) fun L b xs b' hb hxs hd => ?_
  obtain ⟨hled, ⟨_, rfl, hL⟩, -⟩ := hb
  obtain ⟨x, hx, hloose⟩ := (Option.any_eq_true ..).1 hled
  refine ⟨by simp [List.find?_append, hx, hloose], ⟨_, rfl, fun y hy => ?_⟩, hd⟩
  rcases List.mem_append.1 hy with hy | hy
  · exact hL y hy
  · exact hxs y hy

theorem steady_led : Steady (Led d k) where
  advance := Emits.advance.led
  report q := (Emits.report q).led

/-- Taking the keyword. -/
theorem led_advance :
    Meets (fun L b => L = [] ∧ b.depth = d ∧ b.isAnyKeyword Grammar.looseKeywords = true)
      (fun _ => advance) fun _ => Led d k := by
  apply Meets.advance
  · rintro _ b l rest blanks id ⟨rfl, hd, hword⟩ hahead hblanks htidy
    have hloose : Tree.isLooseKeyword (.token id l.token) = true := by
      simp only [isAnyKeyword, word?, hahead, List.head?_cons, Option.bind_some, htidy.word] at hword
      split at hword
      next hname => simpa [Tree.isLooseKeyword, hname] using hword
      next => cases hword
    have hfirst : blanks.find? (!·.isTrivia) = none := by simpa using hblanks
    have htoken : Tree.isTrivia (.token id l.token) = false := htidy.token
    refine ⟨by simp [List.find?_append, hfirst, htoken, hloose], ⟨_, rfl, fun x hx => ?_⟩,
      by simpa using hd⟩
    rcases List.mem_append.1 hx with hx | hx
    · obtain ⟨id, t, rfl, -⟩ := Tree.eq_token_of_isTrivia (hblanks x hx)
      exact atMost_token id t
    · rw [List.mem_singleton.1 hx]
      exact atMost_token id l.token
  · rintro _ b ⟨-, -, hword⟩ hahead
    simp [isAnyKeyword, word?, hahead] at hword

theorem led_finish :
    Meets (Led d k) (fun base => finish .unaryOpExpression base) fun _ => Grown d (AtMost k) [] := by
  apply Meets.finish
  rintro L b base id pos stop ⟨hled, ⟨_, rfl, hL⟩, hd⟩
  refine ⟨⟨_, rfl, fun x hx => ?_⟩, hd⟩
  rw [List.mem_singleton.1 hx, AtMost, Tree.turns]
  refine Tree.turnsList_le_of_forall fun c hc => ?_
  rw [if_pos (show Tree.isUnguarded .unaryOpExpression L c = true from hled)]
  exact hL c hc

end Parser

end ArrayShapes.Syntax
