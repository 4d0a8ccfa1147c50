import ArrayShapes.Proofs.Syntax.Build

/-!
Three judgments about parsers, with a rule for each way to put parsers together. The grammar recurs
without end in sight; what makes it end is that a rule refers to another one only with fewer tokens
left, or to one further down. So each judgment says how many tokens may be left: it is made for all
builders with fewer than `k`, where the rules that are referred to are known to work.

* `Works`: there is a result, and what is done are steps on the nodes from `base` on;
* `Eats`: it works and takes a token, also with `k` tokens left, since the rules are then met later;
* `Steps`: it works, and when it asks to go on it has taken a token.
-/

namespace ArrayShapes.Syntax.Parser

open Builder

variable {α β : Type} {base k : Nat} {b : Builder}

/-! ### Results -/

theorem bind_eq_some {p : Parser α} {f : α → Parser β} {r : β × Builder} :
    (p >>= f) b = some r ↔ ∃ a b', p b = some (a, b') ∧ f a b' = some r := by
  change (p b).bind (fun r => f r.1 r.2) = _ ↔ _
  simp [Option.bind_eq_some_iff]

theorem modifyIf_of {ok : Builder → Bool} (h : ok b = true) (f : Builder → Builder) :
    modifyIf ok f b = some ((), f b) :=
  if_pos h

theorem modifyIf_eq_some {ok : Builder → Bool} {f : Builder → Builder} {r : Unit × Builder} :
    modifyIf ok f b = some r ↔ ok b = true ∧ r = ((), f b) := by
  rw [modifyIf, Option.ite_none_right_eq_some, Option.some.injEq, eq_comm (b := r)]

theorem finish_of_le {kind : PhraseKind} {mark : Nat} (h : mark ≤ b.pending.size) :
    finish kind mark b = some ((), b.finish kind mark) :=
  modifyIf_of (decide_eq_true h) _

theorem finish_eq_some {kind : PhraseKind} {mark : Nat} {r : Unit × Builder} :
    finish kind mark b = some r ↔ mark ≤ b.pending.size ∧ r = ((), b.finish kind mark) := by
  rw [finish, modifyIf_eq_some, decide_eq_true_iff]

theorem descend_of_lt (h : b.depth < maxDepth) :
    descend b = some ((), { b with depth := b.depth + 1 }) :=
  modifyIf_of (decide_eq_true h) _

theorem ascend_of_pos (h : 0 < b.depth) :
    ascend b = some ((), { b with depth := b.depth - 1 }) :=
  modifyIf_of (decide_eq_true h) _

theorem descend_bind {f : Unit → Parser α} (h : b.depth < maxDepth) :
    (descend >>= f) b = f () { b with depth := b.depth + 1 } := by
  change (descend b).bind (fun r => f r.1 r.2) = _
  rw [descend_of_lt h]
  rfl

/-- There is a result, and `Q` holds of it. -/
def Ensures (p : Parser α) (b : Builder) (Q : α → Builder → Prop) : Prop :=
  ∃ a b', p b = some (a, b') ∧ Q a b'

namespace Ensures

variable {p : Parser α} {f : α → Parser β} {Q R : α → Builder → Prop} {S : β → Builder → Prop}

theorem pure {a : α} (h : Q a b) : Ensures (Pure.pure a) b Q := ⟨a, b, rfl, h⟩

theorem imp (h : p.Ensures b Q) (hQ : ∀ a b', Q a b' → R a b') : p.Ensures b R := by
  obtain ⟨a, b', heq, hq⟩ := h
  exact ⟨a, b', heq, hQ a b' hq⟩

theorem bind (h : p.Ensures b Q) (hf : ∀ a b', Q a b' → (f a).Ensures b' S) :
    (p >>= f).Ensures b S := by
  obtain ⟨a, b', heq, hq⟩ := h
  obtain ⟨c, b'', heq', hs⟩ := hf a b' hq
  exact ⟨c, b'', bind_eq_some.2 ⟨a, b', heq, heq'⟩, hs⟩

theorem get_bind {f : Builder → Parser β} (h : (f b).Ensures b S) : (get >>= f).Ensures b S := h

theorem modify {f : Builder → Builder} {Q : Unit → Builder → Prop} (h : Q () (f b)) :
    Ensures (modify f) b Q :=
  ⟨(), f b, rfl, h⟩

theorem finish {kind : PhraseKind} {mark : Nat} {Q : Unit → Builder → Prop}
    (hle : mark ≤ b.pending.size) (h : Q () (b.finish kind mark)) :
    Ensures (finish kind mark) b Q :=
  ⟨(), b.finish kind mark, finish_of_le hle, h⟩

end Ensures

/-! ### Judgments -/

/-- Whatever nodes below `base` there are: if `pre` holds of the number of tokens left, there is a
result, and `post` holds of the number before, the value and the number after. -/
def Runs (base : Nat) (pre : Nat → Prop) (post : Nat → α → Nat → Prop) (p : Parser α) : Prop :=
  ∀ b, Ready base b → pre b.left →
    p.Ensures b fun a b' => Built base b b' ∧ post b.left a b'.left

/-- With fewer than `k` tokens left, `p` has a result. -/
abbrev Works (base k : Nat) (p : Parser α) : Prop := Runs base (· < k) (fun _ _ _ => True) p

/-- With at most `k` tokens left, `p` has a result and takes a token, if there is one. -/
abbrev Eats (base k : Nat) (p : Parser α) : Prop :=
  Runs base (· - 1 < k) (fun left _ left' => left' ≤ left - 1) p

/-- With fewer than `k` tokens left, `p` has a result, and has taken a token if it is `true`. -/
abbrev Steps (base k : Nat) (p : Parser Bool) : Prop :=
  Runs base (· < k) (fun left go left' => go = true → left' < left) p

namespace Runs

variable {pre : Nat → Prop} {post : Nat → β → Nat → Prop}

theorem bind {mid : Nat → α → Nat → Prop} {pre' : α → Nat → Prop}
    {post' : α → Nat → β → Nat → Prop} {p : Parser α} {f : α → Parser β}
    (hp : Runs base pre mid p) (hf : ∀ a, Runs base (pre' a) (post' a) (f a))
    (hpre : ∀ n a n', pre n → n' ≤ n → mid n a n' → pre' a n')
    (hpost : ∀ n a n' c n'', n' ≤ n → n'' ≤ n' → mid n a n' → post' a n' c n'' → post n c n'') :
    Runs base pre post (p >>= f) := by
  intro b hr hb
  refine (hp b hr hb).bind fun a b' ⟨hbuilt, hmid⟩ => ?_
  have hpre' := hpre _ a _ hb hbuilt.left_le hmid
  refine (hf a b' (hbuilt.ready hr) hpre').imp fun c b'' ⟨hbuilt', hc⟩ => ?_
  exact ⟨hbuilt.trans hbuilt', hpost _ a _ c _ hbuilt.left_le hbuilt'.left_le hmid hc⟩

theorem mono {pre' : Nat → Prop} {post' : Nat → β → Nat → Prop} {p : Parser β}
    (h : Runs base pre post p) (hpre : ∀ n, pre' n → pre n)
    (hpost : ∀ n a n', pre' n → post n a n' → post' n a n') : Runs base pre' post' p := by
  intro b hr hb
  refine (h b hr (hpre _ hb)).imp fun a b' ⟨hbuilt, ha⟩ => ?_
  exact ⟨hbuilt, hpost _ a _ hb ha⟩

/-- What holds with any number of tokens left holds under any condition on it. -/
theorem of_forall {p : Parser β} (h : ∀ j, Runs base (· < j) post p) : Runs base pre post p :=
  fun b hr _ => h (b.left + 1) b hr (Nat.lt_succ_self _)

/-- A test that takes a token when it succeeds, and what follows on either side. -/
theorem choice {s : Parser Bool} {f : Bool → Parser β} {pre₁ pre₂ : Nat → Prop}
    {post₁ post₂ : Nat → β → Nat → Prop}
    (hs : Runs base pre (fun n go n' => go = true → n' < n) s)
    (ht : Runs base pre₁ post₁ (f true)) (hf : Runs base pre₂ post₂ (f false))
    (hpre₁ : ∀ n n', pre n → n' < n → pre₁ n') (hpre₂ : ∀ n n', pre n → n' ≤ n → pre₂ n')
    (hpost₁ : ∀ n n' c n'', n' < n → n'' ≤ n' → post₁ n' c n'' → post n c n'')
    (hpost₂ : ∀ n n' c n'', n' ≤ n → n'' ≤ n' → post₂ n' c n'' → post n c n'') :
    Runs base pre post (s >>= f) := by
  intro b hr hb
  refine (hs b hr hb).bind fun go b' ⟨hbuilt, hgo⟩ => ?_
  have hle := hbuilt.left_le
  cases go with
  | true =>
      refine (ht b' (hbuilt.ready hr) (hpre₁ _ _ hb (hgo rfl))).imp fun c b'' ⟨hbuilt', hc⟩ => ?_
      exact ⟨hbuilt.trans hbuilt', hpost₁ _ _ c _ (hgo rfl) hbuilt'.left_le hc⟩
  | false =>
      refine (hf b' (hbuilt.ready hr) (hpre₂ _ _ hb hle)).imp fun c b'' ⟨hbuilt', hc⟩ => ?_
      exact ⟨hbuilt.trans hbuilt', hpost₂ _ _ c _ hle hbuilt'.left_le hc⟩

theorem get_bind {f : Builder → Parser β} (h : ∀ b, Ready base b → Runs base pre post (f b)) :
    Runs base pre post (get >>= f) :=
  fun b hr hb => .get_bind (h b hr b hr hb)

theorem ite {c : Prop} [Decidable c] {p q : Parser β} (hp : c → Runs base pre post p)
    (hq : ¬c → Runs base pre post q) : Runs base pre post (if c then p else q) := by
  split
  · exact hp ‹_›
  · exact hq ‹_›

theorem mark_bind {f : Nat → Parser β}
    (h : ∀ start, base ≤ start → Runs start pre post (f start)) :
    Runs base pre post (mark >>= f) := by
  intro b hr hb
  have hflush : Built base b b.flush := .flush b
  have hready := hflush.ready hr
  refine (h b.flush.pending.size hready.base_le b.flush ⟨Nat.le_refl _, hready.left_eq⟩
    (by rwa [flush_left])).imp fun _ b' ⟨hb', hpost⟩ => ?_
  rw [flush_left] at hpost
  exact ⟨hflush.trans (hb'.mono hready.base_le), hpost⟩

theorem markOutside_bind {f : Nat → Parser β}
    (h : ∀ start, base ≤ start → Runs start pre post (f start)) :
    Runs base pre post (markOutside >>= f) := by
  intro b hr hb
  refine (h b.pending.size hr.base_le b ⟨Nat.le_refl _, hr.left_eq⟩ hb).imp
    fun _ b' ⟨hb', hpost⟩ => ⟨hb'.mono hr.base_le, hpost⟩

/-- Finishing a phrase after `p` changes nothing of what is said about tokens. -/
theorem bind_finish {post : Nat → Unit → Nat → Prop} {kind : PhraseKind} {p : Parser Unit}
    (hp : Runs base pre post p) (hkind : (kind == .error) = false) :
    Runs base pre post (p >>= fun _ => finish kind base) := by
  intro b hr hb
  have hkind' : kind ≠ .error := beq_eq_false_iff_ne.1 hkind
  refine (hp b hr hb).bind fun _ b' ⟨hb', hpost⟩ => .finish (hb'.ready hr).base_le ⟨?_, hpost⟩
  exact hb'.trans (.finish (Nat.le_refl _) (hb'.ready hr).base_le fun h => absurd h hkind')

theorem phrase {post : Nat → Unit → Nat → Prop} {kind : PhraseKind} {p : Parser Unit}
    (hkind : (kind == .error) = false) (h : ∀ start, base ≤ start → Runs start pre post p) :
    Runs base pre post (phrase kind p) :=
  .mark_bind fun start hle => (h start hle).bind_finish hkind

theorem listPhrase {post : Nat → Unit → Nat → Prop} {kind : PhraseKind} {p : Parser Unit}
    (hkind : (kind == .error) = false) (h : ∀ start, base ≤ start → Runs start pre post p) :
    Runs base pre post (listPhrase kind p) :=
  .markOutside_bind fun start hle => (h start hle).bind_finish hkind

end Runs

namespace Works

variable {p : Parser α} {f : α → Parser β}

/-- What works before the first token is taken works later. -/
theorem late (h : Works base (k + 1) p) : Works base k p :=
  h.mono (fun _ => Nat.lt_succ_of_lt) fun _ _ _ _ _ => trivial

theorem pure (a : α) : Works base k (Pure.pure a) := fun _ _ _ => .pure ⟨.refl, trivial⟩

theorem bind (hp : Works base k p) (hf : ∀ a, Works base k (f a)) : Works base k (p >>= f) :=
  Runs.bind hp hf (fun _ _ _ hn hle _ => Nat.lt_of_le_of_lt hle hn) fun _ _ _ _ _ _ _ _ _ => trivial

/-- A part that is left out under a condition, with what follows in any case. -/
theorem when {c : Prop} [Decidable c] {p : Parser Unit} {f : Unit → Parser β}
    (hp : c → Works base k p) (hf : ∀ u, Works base k (f u)) :
    Works base k (if c then p >>= f else f ()) :=
  .ite (fun h => (hp h).bind hf) fun _ => hf ()

theorem advance : Works base k advance := fun b _ _ => .modify ⟨.advance b, trivial⟩

theorem report {q : Problem} : Works base k (report q) :=
  fun b _ _ => .modify ⟨.report b q, trivial⟩

theorem finish {kind : PhraseKind} (hkind : (kind == .error) = false) :
    Works base k (finish kind base) :=
  fun _ hr _ => .finish hr.base_le ⟨.finish (Nat.le_refl _) hr.base_le fun h =>
    absurd h (beq_eq_false_iff_ne.1 hkind), trivial⟩

theorem progress {p : Parser Unit} (hp : Works base k p) : Works base k (progress p) :=
  Runs.get_bind fun _ _ => hp.bind fun _ => Runs.get_bind fun _ _ => Works.pure _

/-- After a token has been taken there are more rules to go on with. -/
theorem choice {s : Parser Bool} {f : Bool → Parser β} (hs : Steps base (k + 1) s)
    (ht : Works base k (f true)) (hf : Works base (k + 1) (f false)) :
    Works base (k + 1) (s >>= f) :=
  Runs.choice hs ht hf (fun _ _ _ _ => by omega) (fun _ _ _ _ => by omega)
    (fun _ _ _ _ _ _ _ => trivial) fun _ _ _ _ _ _ _ => trivial

/-- Induction on the tokens left: a step that asks to go on has taken one. -/
theorem loop {step : Parser Bool} (h : Steps base k step) : Works base k (loop step) := by
  intro b hr hb
  induction hn : b.left using Nat.strongRecOn generalizing b with
  | ind n ih =>
      obtain ⟨go, b', heq, hbuilt, hgo⟩ := h b hr hb
      cases go with
      | false => exact ⟨(), b', by simp [Parser.loop, repeatFrom, heq], hbuilt, trivial⟩
      | true =>
          have hlt := hgo rfl
          obtain ⟨u, b'', heq', hbuilt', -⟩ :=
            ih b'.left (hn ▸ hlt) b' (hbuilt.ready hr) (Nat.lt_trans hlt hb) rfl
          refine ⟨u, b'', ?_, hbuilt.trans hbuilt', trivial⟩
          simp only [Parser.loop] at heq' ⊢
          rw [repeatFrom, heq]
          simpa [hlt] using heq'

theorem loopWhile {go : Builder → Bool} {body : Parser Unit}
    (hbody : Runs base (fun n => 0 < n ∧ n < k) (fun n _ n' => n' < n) body)
    (hgo : ∀ b, Ready base b → go b = true → 0 < b.left) : Works base k (loopWhile go body) := by
  refine .loop fun b hr hb => .get_bind ?_
  split
  · refine (hbody b hr ⟨hgo b hr ‹_›, hb⟩).bind fun _ b' ⟨hb', hlt⟩ => ?_
    exact .pure ⟨hb', fun _ => hlt⟩
  · exact .pure ⟨.refl, fun h => nomatch h⟩

end Works

namespace Eats

variable {p : Parser α} {f : α → Parser β}

theorem works (h : Eats base k p) : Works base k p :=
  h.mono (fun _ _ => by omega) fun _ _ _ _ _ => trivial

/-- Where a token is known to be ahead, it is taken. -/
theorem takes (h : Eats base k p) :
    Runs base (fun n => 0 < n ∧ n < k + 1) (fun n _ n' => n' < n) p :=
  h.mono (fun _ _ => by omega) fun _ _ _ _ _ => by omega

theorem works_at (h : Eats base k p) (hr : Ready base b) (hpos : 0 < b.left)
    (hb : b.left < k + 1) : p.Ensures b fun _ b' => Built base b b' ∧ True :=
  (h.takes b hr ⟨hpos, hb⟩).imp fun _ _ ⟨hb', _⟩ => ⟨hb', trivial⟩

theorem steps_at {s : Parser Bool} (h : Eats base k s) (hr : Ready base b) (hpos : 0 < b.left)
    (hb : b.left < k + 1) :
    s.Ensures b fun go b' => Built base b b' ∧ (go = true → b'.left < b.left) :=
  (h.takes b hr ⟨hpos, hb⟩).imp fun _ _ ⟨hb', hlt⟩ => ⟨hb', fun _ => hlt⟩

theorem advance : Eats base k advance :=
  fun b hr _ => .modify ⟨.advance b, hr.advance_left_le⟩

theorem bind (hp : Eats base k p) (hf : ∀ a, Works base k (f a)) : Eats base k (p >>= f) :=
  Runs.bind hp hf (fun _ _ _ _ _ _ => by omega) fun _ _ _ _ _ _ _ _ _ => by omega

/-- What works with any number of tokens left may come first. -/
theorem after (hp : ∀ j, Works base j p) (hf : ∀ a, Eats base k (f a)) :
    Eats base k (p >>= f) :=
  Runs.bind (.of_forall hp) hf (fun _ _ _ _ _ _ => by omega) fun _ _ _ _ _ _ _ _ _ => by omega

/-- A token is taken either by the test or after it. -/
theorem choice {s : Parser Bool} {f : Bool → Parser β} (hs : ∀ j, Steps base j s)
    (ht : Works base k (f true)) (hf : Eats base k (f false)) : Eats base k (s >>= f) :=
  Runs.choice (.of_forall hs) ht hf (fun _ _ _ _ => by omega) (fun _ _ _ _ => by omega)
    (fun _ _ _ _ _ _ _ => by omega) fun _ _ _ _ _ _ _ => by omega

end Eats

namespace Steps

variable {p : Parser α} {f : α → Parser Bool}

theorem works {s : Parser Bool} (h : Steps base k s) : Works base k s :=
  h.mono (fun _ h => h) fun _ _ _ _ _ => trivial

theorem stop : Steps base k (pure false) := fun _ _ _ => .pure ⟨.refl, fun h => nomatch h⟩

theorem bind (hp : Works base k p) (hf : ∀ a, Steps base k (f a)) : Steps base k (p >>= f) :=
  Runs.bind hp hf (fun _ _ _ _ _ _ => by omega) fun _ _ _ _ _ _ _ _ h hgo => by
    have := h hgo
    omega

theorem choice {s : Parser Bool} {f : Bool → Parser Bool} (hs : Steps base k s)
    (ht : Works base k (f true)) (hf : Steps base k (f false)) : Steps base k (s >>= f) :=
  Runs.choice hs ht hf (fun _ _ _ _ => by omega) (fun _ _ _ _ => by omega)
    (fun _ _ _ _ _ _ _ _ => by omega) fun _ _ _ _ _ _ h hgo => by
      have := h hgo
      omega

theorem late {s : Parser Bool} (h : Steps base (k + 1) s) : Steps base k s :=
  h.mono (fun _ => Nat.lt_succ_of_lt) fun _ _ _ _ h => h

end Steps

/-! ### Looking ahead -/

/-- Where a token is ahead, it is enough to take it. -/
theorem Works.ahead {f : Builder → Parser β}
    (h : ∀ b, Ready base b →
      (0 < b.left ∧ Eats base k (f b)) ∨ Works base (k + 1) (f b)) :
    Works base (k + 1) (get >>= f) := by
  intro b hr hb
  refine .get_bind ?_
  rcases h b hr with ⟨hpos, hf⟩ | hf
  · exact hf.works_at hr hpos hb
  · exact hf b hr hb

theorem Steps.ahead {f : Builder → Parser Bool}
    (h : ∀ b, Ready base b → (0 < b.left ∧ Eats base k (f b)) ∨ Steps base (k + 1) (f b)) :
    Steps base (k + 1) (get >>= f) := by
  intro b hr hb
  refine .get_bind ?_
  rcases h b hr with ⟨hpos, hf⟩ | hf
  · exact hf.steps_at hr hpos hb
  · exact hf b hr hb

/-! ### Tokens -/

theorem accept_steps {t : TokenKind} : Steps base k (accept t) := by
  refine Steps.late (Steps.ahead fun b hr => ?_)
  split
  · exact .inl ⟨hr.left_pos_of_isAt ‹_›, Eats.advance.bind fun _ => Works.pure _⟩
  · exact .inr Steps.stop

theorem acceptKeyword_steps {w : String} : Steps base k (acceptKeyword w) := by
  refine Steps.late (Steps.ahead fun b hr => ?_)
  split
  · exact .inl ⟨hr.left_pos_of_isKeyword ‹_›, Eats.advance.bind fun _ => Works.pure _⟩
  · exact .inr Steps.stop

theorem expect?_steps {t : TokenKind} {text : String} : Steps base k (expect? t text) :=
  accept_steps.choice (Works.pure _) (Steps.bind Works.report fun _ => Steps.stop)

theorem accept_works {t : TokenKind} : Works base k (accept t) := accept_steps.works

theorem skipOptional_works {t : TokenKind} : Works base k (skipOptional t) :=
  accept_works.bind fun _ => Works.pure _

theorem skipOptionalKeyword_works {w : String} : Works base k (skipOptionalKeyword w) :=
  acceptKeyword_steps.works.bind fun _ => Works.pure _

theorem expect_works {t : TokenKind} {text : String} : Works base k (expect t text) :=
  expect?_steps.works.bind fun _ => Works.pure _

theorem accept_of_isAt {t : TokenKind} (hat : b.isAt t = true) :
    accept t b = some (true, b.advance) := by
  have hget : accept t b =
      (if b.isAt t = true then advance >>= fun _ => pure true else pure false : Parser Bool) b :=
    rfl
  rw [hget, if_pos hat]
  rfl

/-- What is expected and is ahead is taken. -/
theorem expect_takes {t : TokenKind} {text : String} (hr : Ready base b) (hat : b.isAt t = true) :
    (expect t text).Ensures b fun _ b' => Built base b b' ∧ b'.left < b.left := by
  have hpos := hr.left_pos_of_isAt hat
  have hle := hr.advance_left_le
  have htaken : (expect? t text).Ensures b fun _ b' => b' = b.advance := by
    refine .bind (Q := fun go b' => go = true ∧ b' = b.advance)
      ⟨true, b.advance, accept_of_isAt hat, rfl, rfl⟩ ?_
    rintro _ _ ⟨rfl, rfl⟩
    exact .pure rfl
  refine htaken.bind ?_
  rintro _ _ rfl
  exact .pure ⟨.advance b, by omega⟩

theorem expectKeyword_works {w : String} : Works base k (expectKeyword w) :=
  acceptKeyword_steps.works.bind fun _ => .ite (fun _ => Works.report) fun _ => Works.pure _

theorem endStatement_works : Works base k endStatement := by
  refine accept_works.bind fun _ => .ite (fun _ => .get_bind fun _ _ => ?_) fun _ => Works.pure _
  exact .ite (fun _ => Works.report) fun _ => Works.pure _

theorem skipToken_eats {q : Problem} : Eats base k (skipToken q) := by
  intro b hr _
  have hflush : Built base b (b.report q).flush := (Built.report b q).trans (.flush _)
  have hadvance : Built (b.report q).flush.pending.size _ _ := .advance (b.report q).flush
  have hmark := (hadvance.ready ⟨Nat.le_refl _, (hflush.ready hr).left_eq⟩).base_le
  refine ⟨(), _, finish_of_le hmark, .skip hr q, ?_⟩
  have := (hflush.ready hr).advance_left_le
  have := hflush.left_le
  change (b.report q).flush.advance.left ≤ _
  omega

theorem missing_works {q : Problem} :
    Works base k (report q >>= fun _ => phrase .error (pure ())) :=
  fun _ hr _ => ⟨(), _, finish_of_le (Nat.le_refl _), .missing hr q, trivial⟩

theorem loopWhile_eats_works {go : Builder → Bool} {body : Parser Unit} (hbody : Eats base k body)
    (hgo : ∀ b, Ready base b → go b = true → 0 < b.left) :
    Works base (k + 1) (loopWhile go body) :=
  Works.loopWhile hbody.takes hgo

/-- A loop ends by a step that does not ask to go on. -/
theorem exists_of_repeatFrom {step : Parser Bool} {b b' : Builder}
    (h : repeatFrom step b = some b') : ∃ b₀, step b₀ = some (false, b') := by
  fun_induction repeatFrom step b with
  | case1 => cases h
  | case2 b b₁ hstep => cases h; exact ⟨b, hstep⟩
  | case3 b b₁ hstep hlt ih => exact ih h
  | case4 => cases h

theorem go_eq_false_of_loopWhile {go : Builder → Bool} {body : Parser Unit} {b b' : Builder}
    {u : Unit} (h : loopWhile go body b = some (u, b')) : go b' = false := by
  obtain ⟨b₁, hrepeat, hb⟩ := Option.map_eq_some_iff.1 h
  obtain ⟨b₀, hstep⟩ := exists_of_repeatFrom hrepeat
  cases hb
  obtain ⟨_, _, hget, hstep⟩ := bind_eq_some.1 hstep
  cases hget
  split at hstep
  · obtain ⟨_, _, -, hpure⟩ := bind_eq_some.1 hstep
    cases hpure
  · cases hstep
    exact Bool.eq_false_iff.2 ‹_›

/-- What no rule takes is taken as an error. -/
theorem progress_or_skip_takes {p : Parser Unit} {q : Problem} (hp : Works base k p) :
    Runs base (fun n => 0 < n ∧ n < k) (fun n _ n' => n' < n)
      (progress p >>= fun moved => if (!moved) = true then skipToken q else pure ()) := by
  intro b hr ⟨hpos, hb⟩
  have hmoved : (progress p).Ensures b fun moved b' =>
      Built base b b' ∧ moved = (b'.left != b.left) :=
    .get_bind ((hp b hr hb).bind fun _ b' ⟨hb', _⟩ => .get_bind (.pure ⟨hb', rfl⟩))
  refine hmoved.bind fun moved b' ⟨hbuilt, hmoved⟩ => ?_
  have hle := hbuilt.left_le
  split
  · refine (skipToken_eats b' (hbuilt.ready hr) (Nat.lt_succ_self _)).imp
      fun _ b'' ⟨hbuilt', hle'⟩ => ⟨hbuilt.trans hbuilt', by omega⟩
  · refine .pure ⟨hbuilt, ?_⟩
    have : b'.left ≠ b.left := by simp_all
    omega

/-- One part of a list, and the comma behind it. -/
theorem progress_accept_steps {p : Parser Unit} {t : TokenKind} (hp : Works base k p) :
    Steps base k (progress p >>= fun moved => if moved = true then accept t else pure false) :=
  Steps.bind (Works.progress hp) fun _ => .ite (fun _ => accept_steps) fun _ => Steps.stop

theorem nested_works {construct : Construct} {body : Parser Unit} (h : Works base k body) :
    Works base k (nested construct body) := by
  intro b hr hb
  refine .get_bind ?_
  split
  · exact Works.report.bind (fun _ => skipToken_eats.works) b hr hb
  · have room : b.depth < maxDepth := Nat.not_le.1 ‹_›
    refine .bind (Q := fun _ b' => b' = { b with depth := b.depth + 1 })
      ⟨(), _, descend_of_lt room, rfl⟩ ?_
    rintro _ _ rfl
    have hbody := h { b with depth := b.depth + 1 } ⟨hr.base_le, hr.left_eq⟩ hb
    refine hbody.bind fun _ b' ⟨hb', _⟩ => ?_
    have hdeep : 0 < b'.depth := by rw [hb'.depth_eq]; exact Nat.succ_pos _
    exact ⟨(), _, ascend_of_pos hdeep, .nested room hb', trivial⟩

end ArrayShapes.Syntax.Parser
