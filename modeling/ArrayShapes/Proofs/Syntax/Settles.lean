import ArrayShapes.Proofs.Syntax.Scene

/-!
A judgment about parsers, with a rule for each way to put parsers together: a scene settles what a
parser does. From all builders that show the scene there is no result, or else there is the same
value, the same problems are found and the same scene is shown in the end. So what a builder does not
show makes no difference, and what holds of scenes holds of all builders.

A parser may finish phrases at the mark behind which it works, so it is a function of this mark.
-/

namespace ArrayShapes.Syntax.Parser

open Builder

variable {α β : Type} {σ : Scene}

/-- From all builders that show `σ` there is no result. -/
def Fails (σ : Scene) (p : Nat → Parser α) : Prop :=
  ∀ base b, Shows base b σ → p base b = none

/-- From all builders that show `σ` the parser leads to `σ'`, with one value and one list of problems
found on the way. -/
def Leads (σ : Scene) (p : Nat → Parser α) (a : α) (found : List Notice) (σ' : Scene) : Prop :=
  ∀ base b, Shows base b σ →
    ∃ b', p base b = some (a, b') ∧ Grows base found b b' ∧ Shows base b' σ'

/-- From all builders that show `σ` the parser does the same, and `Q` holds of the value and the
scene in the end. -/
def Settles (σ : Scene) (p : Nat → Parser α) (Q : α → Scene → Prop) : Prop :=
  Fails σ p ∨ ∃ a found σ', Leads σ p a found σ' ∧ Q a σ'

/-- A test that looks only at what is seen. -/
def Looks (go : Builder → Bool) : Prop := ∀ b : Builder, go b.sight = go b

theorem loop_of_stop {step : Parser Bool} {b b' : Builder} (h : step b = some (false, b')) :
    loop step b = some ((), b') := by
  simp [loop, repeatFrom, h]

theorem loop_of_go {step : Parser Bool} {b b' : Builder} (h : step b = some (true, b')) :
    loop step b = if b'.left < b.left then loop step b' else none := by
  simp only [loop]
  rw [repeatFrom, h]
  by_cases hlt : b'.left < b.left
  · simp [hlt]
  · simp [hlt]

namespace Leads

variable {p : Nat → Parser α} {f : α → Nat → Parser β} {a : α} {c : β} {found found' : List Notice}
  {σ' σ'' : Scene}

theorem bind (hp : Leads σ p a found σ') (hf : Leads σ' (f a) c found' σ'') :
    Leads σ (fun base => p base >>= fun a => f a base) c (found ++ found') σ'' := by
  intro base b hb
  obtain ⟨b', heq, hgrows, hb'⟩ := hp base b hb
  obtain ⟨b'', heq', hgrows', hb''⟩ := hf base b' hb'
  exact ⟨b'', bind_eq_some.2 ⟨a, b', heq, heq'⟩, hgrows.trans hgrows', hb''⟩

theorem bind_fails (hp : Leads σ p a found σ') (hf : Fails σ' (f a)) :
    Fails σ fun base => p base >>= fun a => f a base := by
  intro base b hb
  obtain ⟨b', heq, -, hb'⟩ := hp base b hb
  change (p base b).bind _ = none
  rw [heq]
  exact hf base b' hb'

end Leads

theorem Fails.bind {p : Nat → Parser α} {f : α → Nat → Parser β} (hp : Fails σ p) :
    Fails σ fun base => p base >>= fun a => f a base := by
  intro base b hb
  change (p base b).bind _ = none
  rw [hp base b hb]
  rfl

namespace Settles

variable {p : Nat → Parser α} {Q : α → Scene → Prop}

/-- Of a scene that no builder shows there is nothing to prove. -/
theorem of_shown (h : ∀ base b, Shows base b σ → Settles σ p Q) : Settles σ p Q := by
  by_cases hσ : ∃ base b, Shows base b σ
  · obtain ⟨base, b, hb⟩ := hσ
    exact h base b hb
  · exact .inl fun base b hb => absurd ⟨base, b, hb⟩ hσ

theorem imp {R : α → Scene → Prop} (h : Settles σ p Q)
    (hQ : ∀ a σ', Q a σ' → R a σ') : Settles σ p R := by
  rcases h with hfails | ⟨a, found, σ', hleads, ha⟩
  · exact .inl hfails
  · exact .inr ⟨a, found, σ', hleads, hQ a σ' ha⟩

theorem congr {q : Nat → Parser α} (hq : Settles σ q Q)
    (heq : ∀ base b, Shows base b σ → p base b = q base b) : Settles σ p Q := by
  rcases hq with hfails | ⟨a, found, σ', hleads, ha⟩
  · exact .inl fun base b hb => (heq base b hb).trans (hfails base b hb)
  · refine .inr ⟨a, found, σ', fun base b hb => ?_, ha⟩
    rw [heq base b hb]
    exact hleads base b hb

theorem failure : Settles σ (fun _ => (failure : Parser α)) Q := .inl fun _ _ _ => rfl

theorem pure {a : α} (h : Q a σ) : Settles σ (fun _ => Pure.pure a) Q :=
  .inr ⟨a, [], σ, fun _ b hb => ⟨b, rfl, .refl, hb⟩, h⟩

theorem bind {f : α → Nat → Parser β} {R : β → Scene → Prop} (hp : Settles σ p Q)
    (hf : ∀ a σ', Q a σ' → Settles σ' (f a) R) :
    Settles σ (fun base => p base >>= fun a => f a base) R := by
  rcases hp with hfails | ⟨a, found, σ', hleads, ha⟩
  · exact .inl hfails.bind
  rcases hf a σ' ha with hfails | ⟨c, found', σ'', hleads', hc⟩
  · exact .inl (hleads.bind_fails hfails)
  · exact .inr ⟨c, found ++ found', σ'', hleads.bind hleads', hc⟩

theorem get_bind {f : Builder → Nat → Parser α} (hf : ∀ b base, f b.sight base = f b base)
    (h : Settles σ (f σ.sight) Q) : Settles σ (fun base => get >>= fun b => f b base) Q := by
  refine h.congr fun base b hb => ?_
  rw [← hb.sight_eq, hf]
  rfl

theorem ite {c : Prop} [Decidable c] {q : Nat → Parser α} (hp : c → Settles σ p Q)
    (hq : ¬c → Settles σ q Q) : Settles σ (fun base => if c then p base else q base) Q := by
  by_cases hc : c
  · simpa only [if_pos hc] using hp hc
  · simpa only [if_neg hc] using hq hc

/-- A part that is left out under a condition, with what follows in any case. -/
theorem when {c : Prop} [Decidable c] {p : Nat → Parser Unit} {f : Unit → Nat → Parser β}
    {Q : Unit → Scene → Prop} {R : β → Scene → Prop} (hp : Settles σ p Q) (hskip : Q () σ)
    (hf : ∀ u σ', Q u σ' → Settles σ' (f u) R) :
    Settles σ (fun base => if c then p base >>= fun u => f u base else f () base) R :=
  .ite (fun _ => hp.bind hf) fun _ => hf () σ hskip

section Steps

variable {Q : Unit → Scene → Prop}

theorem advance (h : Q () σ.next) : Settles σ (fun _ => advance) Q :=
  .inr ⟨(), [], σ.next, fun _ b hb => ⟨b.advance, rfl, .advance b, hb.advance⟩, h⟩

theorem report {q : Problem} (h : Q () σ) : Settles σ (fun _ => report q) Q := by
  refine .inr ⟨(), [⟨σ.sight.left, q⟩], σ, fun _ b hb => ⟨b.report q, rfl, ?_, hb.report q⟩, h⟩
  rw [← hb.left_eq]
  exact .report b q

theorem finish {kind : PhraseKind} (hallows : kind.allows σ.nodes = true)
    (h : Q () ⟨σ.sight, [.phrase kind σ.nodes]⟩) :
    Settles σ (fun base => finish kind base) Q := by
  refine .inr ⟨(), [], _, fun base b hb =>
    ⟨b.finish kind base, finish_of_le hb.base_le, ?_, hb.finish kind⟩, h⟩
  exact .finish b kind (by rwa [hb.nodes_eq])

end Steps

/-- Behind a new mark there is nothing yet; in front of it everything stays. -/
theorem mark_bind {f : Nat → Parser α}
    (h : Settles ⟨σ.sight, []⟩ f fun a σ' => Q a ⟨σ'.sight, σ.nodes ++ σ'.nodes⟩) :
    Settles σ (fun _ => mark >>= f) Q := by
  rcases h with hfails | ⟨a, found, σ', hleads, ha⟩
  · exact .inl fun _ _ hb => hfails _ _ hb.mark
  · refine .inr ⟨a, found, _, fun base b hb => ?_, ha⟩
    obtain ⟨b', heq, hgrows, hb'⟩ := hleads _ _ hb.mark
    refine ⟨b', heq, .mark hgrows, ?_⟩
    exact hb.flush.unmark hb.flush.base_le (Nat.le_refl _) (nodes_size _)
      (hgrows.keeps (Nat.le_refl _)) hb'

/-- Induction on the tokens left, with an invariant of the scenes between the steps. Whether a token
has been taken is seen, so either all go on or none. -/
theorem loop {I : Scene → Prop} {step : Nat → Parser Bool} {Q : Unit → Scene → Prop}
    (hstep : ∀ σ, I σ → Settles σ step fun go σ' => if go then I σ' else Q () σ') (hI : I σ) :
    Settles σ (fun base => loop (step base)) Q := by
  induction hn : σ.sight.left using Nat.strongRecOn generalizing σ with
  | ind n ih =>
      rcases hstep σ hI with hfails | ⟨go, found, σ', hleads, hgo⟩
      · exact .inl fun base b hb => by simp [Parser.loop, repeatFrom, hfails base b hb]
      cases go with
      | false =>
          refine .inr ⟨(), found, σ', fun base b hb => ?_, hgo⟩
          obtain ⟨b', heq, hgrows, hb'⟩ := hleads base b hb
          exact ⟨b', loop_of_stop heq, hgrows, hb'⟩
      | true =>
          have hleft {base : Nat} {b b' : Builder} (hb : Shows base b σ) (hb' : Shows base b' σ') :
              b'.left < b.left ↔ σ'.sight.left < σ.sight.left := by rw [hb.left_eq, hb'.left_eq]
          by_cases hlt : σ'.sight.left < σ.sight.left
          · rcases ih _ (hn ▸ hlt) hgo rfl with hfails | ⟨u, found', σ'', hleads', hu⟩
            · refine .inl fun base b hb => ?_
              obtain ⟨b', heq, -, hb'⟩ := hleads base b hb
              exact (loop_of_go heq).trans
                ((if_pos ((hleft hb hb').2 hlt)).trans (hfails base b' hb'))
            · refine .inr ⟨u, found ++ found', σ'', fun base b hb => ?_, hu⟩
              obtain ⟨b', heq, hgrows, hb'⟩ := hleads base b hb
              obtain ⟨b'', heq', hgrows', hb''⟩ := hleads' base b' hb'
              exact ⟨b'', (loop_of_go heq).trans ((if_pos ((hleft hb hb').2 hlt)).trans heq'),
                hgrows.trans hgrows', hb''⟩
          · refine .inl fun base b hb => ?_
            obtain ⟨b', heq, -, hb'⟩ := hleads base b hb
            exact (loop_of_go heq).trans (if_neg fun h => hlt ((hleft hb hb').1 h))

theorem loop_invariant {I : Scene → Prop} {step : Nat → Parser Bool}
    (hstep : ∀ σ, I σ → Settles σ step fun _ σ' => I σ') (hI : I σ) :
    Settles σ (fun base => Parser.loop (step base)) fun _ σ' => I σ' :=
  loop (fun σ hσ => (hstep σ hσ).imp fun go σ' hσ' => by cases go <;> exact hσ') hI

theorem loopWhile {I : Scene → Prop} {go : Builder → Bool} {body : Nat → Parser Unit}
    (hgo : Looks go) (hbody : ∀ σ, I σ → go σ.sight = true → Settles σ body fun _ σ' => I σ')
    (hI : I σ) : Settles σ (fun base => loopWhile go (body base)) fun _ σ' => I σ' := by
  refine loop_invariant (fun σ hσ => get_bind (fun b base => ?_) ?_) hI
  · rw [hgo b]
  · refine ite (fun hgo => ?_) fun _ => pure hσ
    exact (hbody σ hσ hgo).bind fun _ σ' hσ' => pure hσ'

/-- One level deeper, or one token as an error. -/
theorem nested {construct : Construct} {body : Parser Unit} {Q : Unit → Scene → Prop}
    (herror : ∀ σ' children, σ'.nodes = σ.nodes ++ [.phrase .error children] → Q () σ')
    (hbody : Settles (σ.withDepth (σ.sight.depth + 1)) (fun _ => body)
      fun _ σ' => Q () (σ'.withDepth (σ'.sight.depth - 1))) :
    Settles σ (fun _ => nested construct body) Q := by
  refine get_bind (fun _ _ => rfl) (ite (fun _ => ?_) fun hdepth => ?_)
  · refine (report (Q := fun _ σ' => σ'.nodes = σ.nodes) rfl).bind fun _ σ₁ h₁ => ?_
    refine (report (Q := fun _ σ' => σ'.nodes = σ.nodes) h₁).bind fun _ σ₂ h₂ => ?_
    refine mark_bind ((advance (Q := fun _ _ => True) trivial).bind fun _ σ₃ _ => ?_)
    refine finish rfl (herror _ σ₃.nodes ?_)
    rw [h₂]
  · have hroom {base : Nat} {b : Builder} (hb : Shows base b σ) : b.depth < maxDepth := by
      rw [hb.depth_eq]
      exact Nat.not_le.1 hdepth
    rcases hbody with hfails | ⟨_, found, σ', hleads, ha⟩
    · refine .inl fun base b hb => (descend_bind (hroom hb)).trans ?_
      exact hfails.bind (f := fun _ _ => ascend) base _ (hb.withDepth (· + 1))
    -- the depth in the end is seen, so either all go up again or none
    by_cases hdeep : 0 < σ'.sight.depth
    · refine .inr ⟨(), found, _, fun base b hb => ?_, ha⟩
      obtain ⟨b', heq, hgrows, hb'⟩ := hleads base _ (hb.withDepth (· + 1))
      refine ⟨{ b' with depth := b'.depth - 1 }, (descend_bind (hroom hb)).trans ?_,
        .nested (hroom hb) hgrows, hb'.withDepth (· - 1)⟩
      exact bind_eq_some.2 ⟨(), b', heq, ascend_of_pos (by rwa [hb'.depth_eq])⟩
    · have hfails : Fails σ' fun _ => ascend := fun _ b hb =>
        if_neg (by simpa [hb.depth_eq] using hdeep)
      refine .inl fun base b hb => (descend_bind (hroom hb)).trans ?_
      exact hleads.bind_fails (f := fun _ _ => ascend) hfails base _ (hb.withDepth (· + 1))

end Settles

/-! ### Steps that are settled -/

/-- Whatever the scene is, it settles what the parser does. -/
def Settled (p : Nat → Parser α) : Prop := ∀ σ, Settles σ p fun _ _ => True

namespace Settled

variable {p : Nat → Parser α} {f : α → Nat → Parser β}

theorem pure (a : α) : Settled fun _ => (Pure.pure a : Parser α) := fun _ => .pure trivial

theorem bind (hp : Settled p) (hf : ∀ a, Settled (f a)) :
    Settled fun base => p base >>= fun a => f a base :=
  fun σ => (hp σ).bind fun a σ' _ => hf a σ'

theorem ite {c : Prop} [Decidable c] {q : Nat → Parser α} (hp : Settled p) (hq : Settled q) :
    Settled fun base => if c then p base else q base :=
  fun σ => .ite (fun _ => hp σ) fun _ => hq σ

/-- A part that is left out under a condition, with what follows in any case. -/
theorem when {c : Prop} [Decidable c] {p : Nat → Parser Unit} {f : Unit → Nat → Parser β}
    (hp : Settled p) (hf : ∀ u, Settled (f u)) :
    Settled fun base => if c then p base >>= fun u => f u base else f () base :=
  .ite (hp.bind hf) (hf ())

theorem get_bind {f : Builder → Nat → Parser α} (h : ∀ b, Settled (f b))
    (hf : ∀ b base, f b.sight base = f b base) : Settled fun base => get >>= fun b => f b base :=
  fun σ => .get_bind hf (h σ.sight σ)

theorem advance : Settled fun _ => advance := fun _ => .advance trivial

theorem report {q : Problem} : Settled fun _ => report q := fun _ => .report trivial

theorem finish {kind : PhraseKind} (h : kind.slots? = none) : Settled fun base => finish kind base :=
  fun _ => .finish (PhraseKind.allows_of_slots?_eq_none h _) trivial

theorem mark_bind {f : Nat → Parser α} (h : Settled f) : Settled fun _ => mark >>= f :=
  fun σ => .mark_bind (h ⟨σ.sight, []⟩)

theorem loop {step : Nat → Parser Bool} (h : Settled step) :
    Settled fun base => loop (step base) :=
  fun _ => .loop_invariant (fun σ _ => h σ) trivial

theorem loopWhile {go : Builder → Bool} {body : Nat → Parser Unit} (hbody : Settled body)
    (hgo : Looks go) : Settled fun base => loopWhile go (body base) :=
  fun _ => .loopWhile hgo (fun σ _ _ => hbody σ) trivial

theorem nested {construct : Construct} {body : Parser Unit} (h : Settled fun _ => body) :
    Settled fun _ => nested construct body :=
  fun _ => .nested (fun _ _ _ => trivial) (h _)

theorem progress {body : Parser Unit} (h : Settled fun _ => body) :
    Settled fun _ => progress body :=
  .get_bind (fun _ => h.bind fun _ => .get_bind (fun _ => .pure _) (by simp)) (by simp)

end Settled

theorem accept_settled {t : TokenKind} : Settled fun _ => accept t :=
  .get_bind (fun _ => .ite (Settled.advance.bind fun _ => .pure _) (.pure _)) (by simp)

theorem acceptKeyword_settled {w : String} : Settled fun _ => acceptKeyword w :=
  .get_bind (fun _ => .ite (Settled.advance.bind fun _ => .pure _) (.pure _)) (by simp)

theorem skipOptional_settled {t : TokenKind} : Settled fun _ => skipOptional t :=
  accept_settled.bind fun _ => .pure _

theorem skipOptionalKeyword_settled {w : String} : Settled fun _ => skipOptionalKeyword w :=
  acceptKeyword_settled.bind fun _ => .pure _

theorem expect?_settled {t : TokenKind} {text : String} : Settled fun _ => expect? t text :=
  accept_settled.bind fun _ => .ite (.pure _) (Settled.report.bind fun _ => .pure _)

theorem expect_settled {t : TokenKind} {text : String} : Settled fun _ => expect t text :=
  expect?_settled.bind fun _ => .pure _

theorem expectKeyword_settled {w : String} : Settled fun _ => expectKeyword w :=
  acceptKeyword_settled.bind fun _ => .ite .report (.pure _)

theorem endStatement_settled : Settled fun _ => endStatement :=
  accept_settled.bind fun _ => .ite (.get_bind (fun _ => .ite .report (.pure _)) (by simp)) (.pure _)

/-! ### Places that are filled -/

/-- What is added behind the mark fills the places. -/
def Adds (slots : List Slot) (σ : Scene) (p : Nat → Parser α) : Prop :=
  Settles σ p fun _ σ' => ∃ cs, σ'.nodes = σ.nodes ++ cs ∧ Slot.filledBy slots cs = true

namespace Adds

variable {slots more : List Slot} {test : Sketch → Bool} {p : Nat → Parser α}

theorem bind {f : α → Nat → Parser β} (hp : Adds slots σ p) (hf : ∀ a σ', Adds more σ' (f a)) :
    Adds (slots ++ more) σ fun base => p base >>= fun a => f a base := by
  refine Settles.bind hp fun a σ' ⟨cs, hcs, hfilled⟩ => (hf a σ').imp ?_
  rintro c σ'' ⟨ds, hds, hfilled'⟩
  exact ⟨cs ++ ds, by rw [hds, hcs, List.append_assoc], Slot.filledBy_append hfilled hfilled'⟩

/-- Together with what is there already. -/
theorem filled (hp : Adds more σ p) (hσ : σ.Filled slots) :
    Settles σ p fun _ σ' => σ'.Filled (slots ++ more) := by
  refine Settles.imp hp ?_
  rintro _ σ' ⟨cs, hcs, hfilled⟩
  rw [Scene.Filled, hcs]
  exact Slot.filledBy_append hσ hfilled

theorem optional (hp : Adds [.one test] σ p) : Adds [.optional test] σ p := by
  refine Settles.imp hp ?_
  rintro _ σ' ⟨cs, hcs, hfilled⟩
  exact ⟨cs, hcs, Slot.filledBy_of_one hfilled⟩

theorem mono {test' : Sketch → Bool} (hp : Adds (.optional test :: slots) σ p)
    (htest : ∀ c, test c = true → test' c = true) : Adds (.optional test' :: slots) σ p := by
  refine Settles.imp hp ?_
  rintro _ σ' ⟨cs, hcs, hfilled⟩
  exact ⟨cs, hcs, Slot.filledBy_mono htest hfilled⟩

/-- The next token, where there is one that fits. -/
theorem advance {l : Lexeme} (hl : σ.sight.ahead.head? = some l) (ht : test l.sketch = true) :
    Adds [.one test] σ fun _ => advance := by
  refine Settles.advance ⟨[l.sketch], by simp [Scene.next, hl], ?_⟩
  simp [Slot.filledBy, ht]

theorem advance_of_kind {k : TokenKind} (hk : σ.sight.kind? = some k)
    (ht : ∀ text, test (.token k text) = true) : Adds [.one test] σ fun _ => Parser.advance := by
  obtain ⟨l, hl, rfl⟩ := Option.map_eq_some_iff.1 hk
  exact advance hl (ht _)

theorem advance_of_isAtAny {ks : List TokenKind} (hat : σ.sight.isAtAny ks = true) :
    Adds [.one (Sketch.isTokenIn ks)] σ fun _ => Parser.advance := by
  obtain ⟨k, hk, hmem⟩ := (Option.any_eq_true ..).1 hat
  exact advance_of_kind hk fun _ => hmem

/-- Keywords are names. -/
theorem advance_of_word {w : String} (hw : σ.sight.word? = some w)
    (ht : ∀ text, Text.lower text = w → test (.token .name text) = true) :
    Adds [.one test] σ fun _ => Parser.advance := by
  refine Settles.of_shown fun _ _ hb => ?_
  obtain ⟨l, hl, hword⟩ := Option.bind_eq_some_iff.1 hw
  rw [(hb.tidy_sight l (List.mem_of_mem_head? hl)).word] at hword
  split at hword
  · refine advance hl ?_
    rw [Lexeme.sketch, ‹l.token.kind = .name›]
    exact ht _ (Option.some.inj hword)
  · cases hword

end Adds

/-- A token that is not there is not taken. -/
theorem accept_settles {t : TokenKind} :
    Settles σ (fun _ => accept t) fun ok σ' => ok = false → σ' = σ := by
  refine .get_bind (fun b _ => by rw [isAt_sight]) (.ite (fun _ => ?_) fun _ => .pure fun _ => rfl)
  exact (Settled.advance σ).bind fun _ _ _ => .pure nofun

theorem accept_adds {t : TokenKind} : Adds [.optional (Sketch.isTokenIn [t])] σ fun _ => accept t := by
  refine Settles.get_bind (fun b _ => by rw [isAt_sight]) (.ite (fun hat => ?_) fun _ => .pure ?_)
  · have htoken : Adds [.one (Sketch.isTokenIn [t])] σ fun _ => advance :=
      .advance_of_kind (eq_of_beq hat) fun _ => by simp [Sketch.isTokenIn]
    exact Settles.bind htoken.optional fun _ σ' hσ' => .pure hσ'
  · exact ⟨[], by simp, rfl⟩

theorem skipOptional_adds {t : TokenKind} :
    Adds [.optional (Sketch.isTokenIn [t])] σ fun _ => skipOptional t :=
  Settles.bind accept_adds fun _ _ hσ' => .pure hσ'

theorem expect_adds {t : TokenKind} {text : String} :
    Adds [.optional (Sketch.isTokenIn [t])] σ fun _ => expect t text := by
  refine Settles.bind (Settles.bind accept_adds fun ok σ' hσ' => ?_) fun _ _ hσ' => .pure hσ'
  exact .ite (fun _ => .pure hσ') fun _ => (Settles.report hσ').bind fun _ _ hσ' => .pure hσ'

/-! ### Operands -/

/-- One operand is added, and nothing else but blank text. -/
def Operand (p : Parser Unit) : Prop := ∀ σ, Adds [.one Sketch.isOperand] σ fun _ => p

/-- There is one operand behind the mark. -/
def IsOperand (σ : Scene) : Prop := σ.Filled [.one Sketch.isOperand]

theorem Settles.finish_filled {kind : PhraseKind} {slots : List Slot} (hσ : σ.Filled slots)
    (hkind : kind.slots? = some slots) :
    Settles σ (fun base => Parser.finish kind base) fun _ σ' => IsOperand σ' :=
  .finish (PhraseKind.allows_of_slots?_eq_some hkind hσ) rfl

/-- Whatever there is behind the mark, in the end it is one operand. -/
def Wraps (p : Nat → Parser α) : Prop := ∀ σ, Settles σ p fun _ σ' => IsOperand σ'

namespace Wraps

theorem finish {kind : PhraseKind} (hkind : kind.slots? = none) :
    Wraps fun base => Parser.finish kind base :=
  fun _ => .finish (PhraseKind.allows_of_slots?_eq_none hkind _) rfl

theorem after {p : Nat → Parser α} {f : α → Nat → Parser β} (hp : Settled p)
    (hf : ∀ a, Wraps (f a)) : Wraps fun base => p base >>= fun a => f a base :=
  fun σ => (hp σ).bind fun a σ' _ => hf a σ'

theorem bind_pure {p : Nat → Parser α} {c : β} (hp : Wraps p) :
    Wraps fun base => p base >>= fun _ => Pure.pure c :=
  fun σ => (hp σ).bind fun _ _ hσ' => .pure hσ'

theorem ite {c : Prop} [Decidable c] {p q : Nat → Parser α} (hp : Wraps p) (hq : Wraps q) :
    Wraps fun base => if c then p base else q base :=
  fun σ => .ite (fun _ => hp σ) fun _ => hq σ

theorem when {c : Prop} [Decidable c] {p : Nat → Parser Unit} {f : Unit → Nat → Parser β}
    (hp : Settled p) (hf : ∀ u, Wraps (f u)) :
    Wraps fun base => if c then p base >>= fun u => f u base else f () base :=
  .ite (.after hp hf) (hf ())

theorem get_bind {f : Builder → Nat → Parser α} (h : ∀ b, Wraps (f b))
    (hf : ∀ b base, f b.sight base = f b base) :
    Wraps fun base => get >>= fun b => f b base :=
  fun σ => .get_bind hf (h σ.sight σ)

end Wraps

namespace Operand

variable {p : Parser Unit}

theorem settled (h : Operand p) : Settled fun _ => p := fun σ => (h σ).imp fun _ _ _ => trivial

/-- Behind a new mark an operand is the first node. -/
theorem first (h : Operand p) (b : Builder) :
    Settles ⟨b, []⟩ (fun _ => p) fun _ σ' => IsOperand σ' :=
  (h _).filled (.nil b)

theorem mark_bind {f : Nat → Parser Unit}
    (h : ∀ b, Settles ⟨b, []⟩ f fun _ σ' => IsOperand σ') : Operand (mark >>= f) :=
  fun σ => .mark_bind ((h σ.sight).imp fun _ σ' hσ' => ⟨σ'.nodes, rfl, hσ'⟩)

theorem phrase {kind : PhraseKind} {body : Parser Unit} (hkind : kind.slots? = none)
    (h : Settled fun _ => body) : Operand (phrase kind body) :=
  .mark_bind fun b => Wraps.after h (fun _ => .finish hkind) ⟨b, []⟩

/-- A phrase whose children fill the places of its kind. -/
theorem phrase_filled {kind : PhraseKind} {slots : List Slot} {body : Parser Unit}
    (hkind : kind.slots? = some slots) (h : ∀ b, Adds slots ⟨b, []⟩ fun _ => body) :
    Operand (Parser.phrase kind body) :=
  .mark_bind fun b => ((h b).filled (.nil b)).bind fun _ _ hσ' => .finish_filled hσ' hkind

theorem ite {c : Prop} [Decidable c] {q : Parser Unit} (hp : Operand p) (hq : Operand q) :
    Operand (if c then p else q) :=
  fun σ => .ite (fun _ => hp σ) fun _ => hq σ

theorem get_bind {f : Builder → Parser Unit} (h : ∀ b, Operand (f b))
    (hf : ∀ b, f b.sight = f b) :
    Operand (get >>= f) :=
  fun σ => .get_bind (fun b _ => hf b) (h σ.sight σ)

theorem nested {construct : Construct} (h : Operand p) : Operand (nested construct p) := by
  refine fun σ => .nested (fun σ' children hσ' => ?_) (h _)
  exact ⟨_, hσ', rfl⟩

end Operand

theorem missing_operand {q : Problem} :
    Operand (report q >>= fun _ => phrase .error (Pure.pure ())) := by
  refine fun σ => (Settles.report (Q := fun _ σ' => σ' = σ) rfl).bind ?_
  rintro _ _ rfl
  exact Operand.phrase rfl (.pure _) _

theorem skipToken_settled {q : Problem} : Settled fun _ => skipToken q :=
  Settled.report.bind fun _ => (Operand.phrase rfl .advance).settled

/-! ### Blank text in front -/

/-- A parser that places the blank text in front of it before it does anything, or else does
nothing at all. -/
def Waits (p : Parser Unit) : Prop :=
  ∀ b, p b = p b.flush ∨ (p b = some ((), b) ∧ p b.flush = some ((), b.flush))

theorem mark_bind_flush (f : Nat → Parser α) (b : Builder) :
    (mark >>= f) b = (mark >>= f) b.flush := by
  change f b.flush.pending.size b.flush = f b.flush.flush.pending.size b.flush.flush
  rw [flush_flush]

theorem skipToken_flush (q : Problem) (b : Builder) : skipToken q b = skipToken q b.flush := by
  change phrase .error advance (b.report q) = phrase .error advance (b.flush.report q)
  rw [flush_report]
  exact mark_bind_flush _ _

theorem progress_eq (p : Parser Unit) (b : Builder) :
    progress p b = (p b).map fun r => (r.2.left != b.left, r.2) := by
  change (p b).bind _ = _
  cases p b <;> rfl

namespace Waits

variable {p : Parser Unit}

theorem pure : Waits (Pure.pure ()) := fun _ => .inr ⟨rfl, rfl⟩

theorem failure : Waits failure := fun _ => .inl rfl

theorem mark_bind {f : Nat → Parser Unit} : Waits (mark >>= f) :=
  fun b => .inl (mark_bind_flush f b)

theorem ite {c : Prop} [Decidable c] {q : Parser Unit} (hp : Waits p) (hq : Waits q) :
    Waits (if c then p else q) := by
  split
  · exact hp
  · exact hq

theorem get_bind {f : Builder → Parser Unit} (h : ∀ b, Waits (f b))
    (hf : ∀ b, f b.sight = f b) : Waits (get >>= f) := by
  intro b
  have hsame : f b.flush = f b := by rw [← hf b.flush, sight_flush, hf b]
  change f b b = f b.flush b.flush ∨ (f b b = _ ∧ f b.flush b.flush = _)
  rw [hsame]
  exact h b b

theorem nested {construct : Construct} (h : Waits p) : Waits (nested construct p) := by
  intro b
  have hdepth : b.flush.depth = b.depth := by rw [← sight_depth, sight_flush, sight_depth]
  by_cases hdeep : b.depth ≥ maxDepth
  · have hskip {b : Builder} (hb : b.depth ≥ maxDepth) : Parser.nested construct p b =
        skipToken (.missing construct) (b.report .nestingTooDeep) :=
      congrFun (if_pos hb) b
    refine .inl ?_
    rw [hskip hdeep, hskip (by rwa [hdepth]), flush_report]
    exact skipToken_flush _ _
  · have hbody {b : Builder} (hb : ¬b.depth ≥ maxDepth) : Parser.nested construct p b =
        (p { b with depth := b.depth + 1 }).bind fun r => ascend r.2 :=
      (congrFun (if_neg hb) b).trans (descend_bind (Nat.not_le.1 hb))
    rw [hbody hdeep, hbody (by rwa [hdepth]), hdepth, ← flush_withDepth]
    rcases h { b with depth := b.depth + 1 } with heq | ⟨heq, heq'⟩
    · rw [heq]
      exact .inl rfl
    · rw [heq, heq', flush_withDepth]
      refine .inr ⟨ascend_of_pos (Nat.succ_pos _), ?_⟩
      refine (ascend_of_pos (Nat.succ_pos _)).trans ?_
      simp [← hdepth]

/-- What no rule takes is taken as an error, after the blank text in front of it has been placed. -/
theorem progress_or_skip (h : Waits p) (q : Problem) (b : Builder) :
    (progress p >>= fun moved => if (!moved) = true then skipToken q else Pure.pure ()) b =
      (progress p >>= fun moved => if (!moved) = true then skipToken q else Pure.pure ()) b.flush := by
  change (progress p b).bind _ = (progress p b.flush).bind _
  rw [progress_eq, progress_eq, flush_left]
  rcases h b with heq | ⟨heq, heq'⟩
  · rw [heq]
  · rw [heq, heq']
    simp only [Option.map_some, Option.bind_some, flush_left, bne_self_eq_false]
    exact skipToken_flush q b

end Waits

/-- Parts of a list: what is seen settles what they do, and blank text in front of them is placed
first. -/
structure Starts (p : Parser Unit) : Prop where
  settled : Settled fun _ => p
  waits : Waits p

namespace Starts

variable {p : Parser Unit}

theorem pure : Starts (Pure.pure ()) := ⟨.pure _, .pure⟩

theorem phrase {kind : PhraseKind} (hkind : kind.slots? = none) (h : Settled fun _ => p) :
    Starts (phrase kind p) :=
  ⟨(Operand.phrase hkind h).settled, .mark_bind⟩

theorem ite {c : Prop} [Decidable c] {q : Parser Unit} (hp : Starts p) (hq : Starts q) :
    Starts (if c then p else q) :=
  ⟨.ite hp.settled hq.settled, .ite hp.waits hq.waits⟩

theorem get_bind {f : Builder → Parser Unit} (h : ∀ b, Starts (f b))
    (hf : ∀ b, f b.sight = f b) :
    Starts (get >>= f) :=
  ⟨.get_bind (fun b => (h b).settled) fun b _ => hf b, .get_bind (fun b => (h b).waits) hf⟩

theorem nested {construct : Construct} (h : Starts p) : Starts (nested construct p) :=
  ⟨h.settled.nested, h.waits.nested⟩

end Starts

/-! ### Lists -/

theorem loopWhile_of_not {go : Builder → Bool} {body : Parser Unit} {b : Builder}
    (hgo : go b = false) : loopWhile go body b = some ((), b) := by
  refine loop_of_stop (congrFun (if_neg ?_) b)
  rw [hgo]
  exact Bool.false_ne_true

/-- Where a loop goes on, it makes no difference whether the blank text has been placed. -/
theorem loopWhile_flush {go : Builder → Bool} {body : Parser Unit} {b : Builder} (hgo : Looks go)
    (hwaits : body b = body b.flush) (hb : go b = true) :
    loopWhile go body b = loopWhile go body b.flush := by
  have hb' : go b.flush = true := by rwa [← hgo, sight_flush, hgo]
  have hstep {b : Builder} (hb : go b = true) :
      (do if go (← get) then body; return true else return false : Parser Bool) b =
        (body b).map fun r => (true, r.2) := by
    refine (congrFun (if_pos hb) b).trans ?_
    change (body b).bind _ = _
    cases body b <;> rfl
  rw [Parser.loopWhile]
  simp only [loop]
  rw [repeatFrom, repeatFrom, hstep hb, hstep hb', hwaits, flush_left]

theorem listPhrase_of_none {kind : PhraseKind} {body : Parser Unit} {b : Builder}
    (h : body b = none) : listPhrase kind body b = none := by
  change (body b).bind _ = _
  rw [h]
  rfl

theorem listPhrase_of_some {kind : PhraseKind} {body : Parser Unit} {b b' : Builder} {u : Unit}
    (h : body b = some (u, b')) (hle : b.pending.size ≤ b'.pending.size) :
    listPhrase kind body b = some ((), b'.finish kind b.pending.size) := by
  change (body b).bind _ = _
  rw [h]
  exact finish_of_le hle

/-- A list is an operand like other phrases. If it has parts, the blank text in front of it belongs
to it. -/
theorem Operand.listPhrase {kind : PhraseKind} {go : Builder → Bool} {body : Parser Unit}
    (hkind : kind.isList = true) (hgo : Looks go) (hbody : Settled fun _ => body)
    (hwaits : ∀ b, body b = body b.flush) : Operand (listPhrase kind (loopWhile go body)) := by
  intro σ
  have hgo' {base : Nat} {b : Builder} (hb : Shows base b σ) : go b = go σ.sight := by
    rw [← hgo b, hb.sight_eq]
  have hadds {children : List Sketch} : ∃ cs, σ.nodes ++ [.phrase kind children] = σ.nodes ++ cs ∧
      Slot.filledBy [.one Sketch.isOperand] cs = true := ⟨_, rfl, rfl⟩
  by_cases hσ : go σ.sight = true
  · rcases Settled.loopWhile hbody hgo ⟨σ.sight, []⟩ with hfails | ⟨_, found, σ', hleads, -⟩
    · refine .inl fun base b hb => ?_
      have hflush := loopWhile_flush hgo (hwaits b) ((hgo' hb).trans hσ)
      exact listPhrase_of_none (hflush.trans (hfails _ _ hb.markOutside))
    · refine .inr ⟨(), found, ⟨σ'.sight, σ.nodes ++ [.phrase kind σ'.nodes]⟩, fun base b hb => ?_,
        hadds⟩
      obtain ⟨b', heq, hgrows, hb'⟩ := hleads _ _ hb.markOutside
      have hlist {base : Nat} : Grows base found b (b'.finish kind b.pending.size) :=
        .list kind hkind hgrows
      refine ⟨_, ?_, hlist, ?_⟩
      · have hflush := loopWhile_flush hgo (hwaits b) ((hgo' hb).trans hσ)
        exact listPhrase_of_some (hflush.trans heq) hb'.base_le
      · exact hb.unmark hb.base_le (Nat.le_refl _) (nodes_size b) (hlist.keeps (Nat.le_refl _))
          (hb'.finish kind)
  · refine .inr ⟨(), [], ⟨σ.sight, σ.nodes ++ [.phrase kind []]⟩, fun base b hb => ?_, hadds⟩
    have hlist {base : Nat} : Grows base [] b (b.finish kind b.pending.size) :=
      .emptyList b kind hkind
    have hempty : Shows b.pending.size b ⟨σ.sight, []⟩ :=
      ⟨hb.tidy, Nat.le_refl _, hb.sight_eq, nodes_size b⟩
    refine ⟨_, ?_, hlist, ?_⟩
    · have hstop : go b = false := (hgo' hb).trans (Bool.eq_false_iff.2 hσ)
      exact listPhrase_of_some (loopWhile_of_not hstop) (Nat.le_refl _)
    · exact hb.unmark hb.base_le (Nat.le_refl _) (nodes_size b) (hlist.keeps (Nat.le_refl _))
        (hempty.finish kind)

end ArrayShapes.Syntax.Parser
