import ArrayShapes.Proofs.Syntax.Scene.Script

/-!
Contracts of parsers. A contract says of every result, if there is one, what holds of the nodes behind
the mark at which the parser works, when something held of them before. Each way to put parsers
together has a rule. Nodes in front of the mark stay as they are, so behind a new mark there is nothing
at first.
-/

namespace ArrayShapes.Syntax

theorem Tree.eq_token_of_isTrivia {x : Tree} (h : x.isTrivia = true) :
    ∃ id t, x = .token id t ∧ t.isTrivia = true := by
  cases x with
  | token id t => exact ⟨id, t, rfl, h⟩
  | phrase => cases h

namespace Builder

/-- The pending nodes from `base` on. -/
def forest (b : Builder) (base : Nat) : List Tree := b.pending.toList.drop base

/-- There are diagnostics if a problem has been reported. -/
def Records (b : Builder) : Prop := b.diagnostics = #[] ↔ b.lastReport = none

/-- What every parser sees to behind the mark `base`. Tokens that are placed stay in place, and a
problem that has been reported stays so. -/
structure Frame (base : Nat) (b b' : Builder) : Prop extends Keeps base b b' where
  tidy : b'.Tidy
  depth_eq : b'.depth = b.depth
  clean : b'.lastReport = none → b.lastReport = none
  records : b.Records → b'.Records
  tokens : Tree.tokensList b.pending.toList <+: Tree.tokensList b'.pending.toList

variable {base start : Nat} {b b' b'' : Builder}

theorem Frame.refl (htidy : b.Tidy) (hle : base ≤ b.pending.size) : Frame base b b :=
  ⟨⟨hle, rfl⟩, htidy, rfl, id, id, List.prefix_refl _⟩

theorem Frame.trans (h : Frame base b b') (h' : Frame base b' b'') : Frame base b b'' :=
  ⟨h.toKeeps.trans h'.toKeeps, h'.tidy, h'.depth_eq.trans h.depth_eq, h.clean ∘ h'.clean,
    h'.records ∘ h.records, h.tokens.trans h'.tokens⟩

theorem Frame.mono (h : Frame start b b') (hle : base ≤ start) : Frame base b b' :=
  ⟨h.toKeeps.mono hle, h.tidy, h.depth_eq, h.clean, h.records, h.tokens⟩

@[simp]
theorem depth_advance (b : Builder) : b.advance.depth = b.depth := by
  cases hb : b.ahead with
  | nil => rw [advance_nil hb]
  | cons l rest => rw [advance_cons hb]

@[simp]
theorem depth_flush (b : Builder) : b.flush.depth = b.depth := by
  cases hb : b.ahead with
  | nil => rw [flush_nil hb]
  | cons l rest => rw [flush_cons hb]

@[simp]
theorem depth_report (b : Builder) (q : Problem) : (b.report q).depth = b.depth := by
  rw [report_eq]

theorem Records.advance (h : b.Records) : b.advance.Records := by
  cases hb : b.ahead with
  | nil => rwa [advance_nil hb]
  | cons l rest => rwa [advance_cons hb]

theorem Records.flush (h : b.Records) : b.flush.Records := by
  cases hb : b.ahead with
  | nil => rwa [flush_nil hb]
  | cons l rest => rwa [flush_cons hb]

theorem Records.report (h : b.Records) (q : Problem) : (b.report q).Records := by
  rw [Records, report_eq]
  dsimp only
  split
  next hlast =>
    rw [Records, hlast] at h
    simpa using h
  next => simp

/-- The blank text that is placed. -/
theorem flush_leaves (htidy : b.Tidy) :
    ∃ blanks, b.flush.pending.toList = b.pending.toList ++ blanks ∧
      ∀ x ∈ blanks, x.isTrivia = true := by
  have hleaves {n : Nat} {ts : List Token} (hts : ∀ t ∈ ts, t.isTrivia = true) :
      ∀ x ∈ leaves n ts, x.isTrivia = true := by
    intro x hx
    obtain ⟨i, hi, rfl⟩ := List.mem_mapIdx.1 hx
    exact hts _ (List.getElem_mem hi)
  cases hb : b.ahead with
  | nil =>
      rw [flush_nil hb]
      exact ⟨leaves b.made b.trailing, by simp, hleaves htidy.trailing⟩
  | cons l rest =>
      rw [flush_cons hb]
      exact ⟨leaves b.made l.blank, by simp, hleaves (htidy.ahead l (by simp [hb])).blank⟩

/-- The blank text and the token that are taken. -/
theorem advance_leaves {l : Lexeme} {rest : List Lexeme} (htidy : b.Tidy)
    (hb : b.ahead = l :: rest) :
    ∃ blanks id, b.advance.pending.toList = b.pending.toList ++ (blanks ++ [.token id l.token]) ∧
      (∀ x ∈ blanks, x.isTrivia = true) ∧ l.token.isTrivia = false := by
  have hl : l.Tidy := htidy.ahead l (by simp [hb])
  refine ⟨leaves b.made l.blank, b.made + l.blank.length, ?_, ?_, hl.token⟩
  · rw [advance_cons hb]
    simp [leaves]
  · intro x hx
    obtain ⟨i, hi, rfl⟩ := List.mem_mapIdx.1 hx
    exact hl.blank _ (List.getElem_mem hi)

theorem forest_of_append {ts : List Tree} (hle : base ≤ b.pending.size)
    (h : b'.pending.toList = b.pending.toList ++ ts) : b'.forest base = b.forest base ++ ts := by
  rw [forest, h, List.drop_append_of_le_length (by simpa using hle), forest]

theorem forest_size (b : Builder) : b.forest b.pending.size = [] := by
  simp [forest]

/-- What is behind a later mark, together with what was behind the first one before. -/
theorem forest_of_keeps (hle : base ≤ b.pending.size) (h : Keeps b.pending.size b b') :
    b'.forest base = b.forest base ++ b'.forest b.pending.size := by
  have htake : b'.pending.toList.take b.pending.size = b.pending.toList := by
    rw [h.take_eq]
    exact List.take_of_length_le (by simp)
  rw [forest, ← List.take_append_drop b.pending.size b'.pending.toList, htake,
    List.drop_append_of_le_length (by simpa using hle), forest, forest]

theorem forest_finish (hle : base ≤ b.pending.size) (kind : PhraseKind) :
    ∃ id pos stop, (b.finish kind base).forest base = [.phrase id kind pos stop (b.forest base)] := by
  have hlength : (b.pending.toList.take base).length = base := by simp [hle]
  rw [forest, finish_pending_toList, List.drop_append_of_le_length (Nat.le_of_eq hlength.symm),
    List.drop_of_length_le (Nat.le_of_eq hlength)]
  exact ⟨_, _, _, rfl⟩

theorem tokens_of_append {ts : List Tree} (h : b'.pending.toList = b.pending.toList ++ ts) :
    Tree.tokensList b.pending.toList <+: Tree.tokensList b'.pending.toList := by
  rw [h, Tree.tokensList_append]
  exact List.prefix_append _ _

theorem tokensList_forest (b : Builder) (base : Nat) :
    Tree.tokensList b.pending.toList =
      Tree.tokensList (b.pending.toList.take base) ++ Tree.tokensList (b.forest base) := by
  rw [forest, ← Tree.tokensList_append, List.take_append_drop]

/-- The tokens behind the mark stay there. -/
theorem Frame.tokens_forest (h : Frame base b b') :
    Tree.tokensList (b.forest base) <+: Tree.tokensList (b'.forest base) := by
  have htokens := h.tokens
  rwa [tokensList_forest b base, tokensList_forest b' base, h.take_eq,
    List.prefix_append_right_inj] at htokens

theorem Frame.advance (htidy : b.Tidy) (hle : base ≤ b.pending.size) :
    Frame base b b.advance := by
  obtain ⟨ts, hts⟩ := advance_pending b
  exact ⟨.of_append hle hts, htidy.advance, depth_advance b, by simp [lastReport_advance],
    .advance, tokens_of_append hts⟩

theorem Frame.flush (htidy : b.Tidy) (hle : base ≤ b.pending.size) : Frame base b b.flush := by
  obtain ⟨ts, hts⟩ := flush_pending b
  exact ⟨.of_append hle hts, htidy.flush, depth_flush b, by simp [lastReport_flush],
    .flush, tokens_of_append hts⟩

theorem Frame.report (htidy : b.Tidy) (hle : base ≤ b.pending.size) (q : Problem) :
    Frame base b (b.report q) :=
  ⟨by rw [report_eq]; exact ⟨hle, rfl⟩, htidy.report q, depth_report b q,
    by simp [lastReport_report], fun h => h.report q, by simp [report_eq]⟩

theorem Frame.finish (htidy : b.Tidy) (hle : base ≤ start) (hstart : start ≤ b.pending.size)
    (kind : PhraseKind) : Frame base b (b.finish kind start) := by
  refine ⟨.finish hle hstart kind, ⟨htidy.ahead, htidy.trailing⟩, rfl, id, id, ?_⟩
  have htokens : Tree.tokensList (b.finish kind start).pending.toList =
      Tree.tokensList b.pending.toList := by
    rw [finish_pending_toList, Tree.tokensList_append]
    simp only [Tree.tokensList, Tree.tokens, List.append_nil]
    rw [← Tree.tokensList_append, List.take_append_drop]
  exact htokens ▸ List.prefix_refl _

end Builder

namespace Parser

open Builder

variable {α β : Type}

/-! ### Runs -/

theorem get_bind_apply (f : Builder → Parser α) (b : Builder) : (get >>= f) b = f b b := rfl

theorem mark_bind_apply (f : Nat → Parser α) (b : Builder) :
    (mark >>= f) b = f b.flush.pending.size b.flush := rfl

theorem bind_of_eq_some {p : Parser α} {f : α → Parser β} {a : α} {b b' : Builder}
    (h : p b = some (a, b')) : (p >>= f) b = f a b' := by
  change (p b).bind (fun r => f r.1 r.2) = _
  rw [h]
  rfl

/-! ### Contracts -/

/-- A statement about the nodes behind a mark and the builder. -/
abbrev Assertion := List Tree → Builder → Prop

/-- If `P` holds behind the mark, then `Q` holds of every result. -/
def Meets (P : Assertion) (p : Nat → Parser α) (Q : α → Assertion) : Prop :=
  ∀ base b, b.Tidy → base ≤ b.pending.size → P (b.forest base) b →
    ∀ a b', p base b = some (a, b') → Frame base b b' ∧ Q a (b'.forest base) b'

namespace Meets

variable {P P' : Assertion} {p : Nat → Parser α} {Q Q' : α → Assertion}

theorem imp (h : Meets P p Q) (hP : ∀ L b, P' L b → P L b) (hQ : ∀ a L b, Q a L b → Q' a L b) :
    Meets P' p Q' := by
  intro base b htidy hle hb a b' heq
  obtain ⟨hframe, ha⟩ := h base b htidy hle (hP _ _ hb) a b' heq
  exact ⟨hframe, hQ _ _ _ ha⟩

theorem pure {a : α} (h : ∀ L b, P L b → Q a L b) : Meets P (fun _ => Pure.pure a) Q := by
  intro base b htidy hle hb a' b' heq
  cases heq
  exact ⟨.refl htidy hle, h _ _ hb⟩

theorem failure : Meets P (fun _ => (failure : Parser α)) Q := by
  intro base b _ _ _ a b' heq
  cases heq

theorem bind {f : α → Nat → Parser β} {R : β → Assertion} (hp : Meets P p Q)
    (hf : ∀ a, Meets (Q a) (f a) R) : Meets P (fun base => p base >>= fun a => f a base) R := by
  intro base b htidy hle hb c b'' heq
  obtain ⟨a, b', hpb, hfb⟩ := bind_eq_some.1 heq
  obtain ⟨hframe, ha⟩ := hp base b htidy hle hb a b' hpb
  obtain ⟨hframe', hc⟩ := hf a base b' hframe.tidy hframe.base_le ha c b'' hfb
  exact ⟨hframe.trans hframe', hc⟩

theorem get_bind {f : Builder → Nat → Parser α}
    (h : ∀ b₀, Meets (fun L b => P L b ∧ b = b₀) (f b₀) Q) :
    Meets P (fun base => get >>= fun b => f b base) Q := by
  intro base b htidy hle hb a b' heq
  exact h b base b htidy hle ⟨hb, rfl⟩ a b' heq

theorem ite {c : Prop} [Decidable c] {q : Nat → Parser α} (hp : c → Meets P p Q)
    (hq : ¬c → Meets P q Q) : Meets P (fun base => if c then p base else q base) Q := by
  by_cases hc : c
  · simpa only [if_pos hc] using hp hc
  · simpa only [if_neg hc] using hq hc

theorem or (h : Meets P p Q) (h' : Meets P' p Q) : Meets (fun L b => P L b ∨ P' L b) p Q := by
  rintro base b htidy hle (hb | hb)
  · exact h base b htidy hle hb
  · exact h' base b htidy hle hb

/-- What follows from the builder alone may be used. -/
theorem of_holds {c : Prop} (hc : ∀ L b, P L b → c) (h : c → Meets P p Q) : Meets P p Q :=
  fun base b htidy hle hb => h (hc _ _ hb) base b htidy hle hb

section Steps

variable {Q : Unit → Assertion}

theorem advance
    (htake : ∀ L b l rest blanks id, P L b → b.ahead = l :: rest →
      (∀ x ∈ blanks, x.isTrivia = true) → l.Tidy →
      Q () (L ++ (blanks ++ [.token id l.token])) b.advance)
    (hend : ∀ L b, P L b → b.ahead = [] → Q () L b) : Meets P (fun _ => Parser.advance) Q := by
  intro base b htidy hle hb a b' heq
  cases heq
  refine ⟨.advance htidy hle, ?_⟩
  cases hahead : b.ahead with
  | nil =>
      rw [advance_nil hahead]
      exact hend _ _ hb hahead
  | cons l rest =>
      obtain ⟨blanks, id, hpending, hblanks, -⟩ := advance_leaves htidy hahead
      rw [forest_of_append hle hpending]
      exact htake _ _ l rest blanks id hb hahead hblanks (htidy.ahead l (by simp [hahead]))

theorem report {q : Problem} (h : ∀ L b, P L b → Q () L (b.report q)) :
    Meets P (fun _ => Parser.report q) Q := by
  intro base b htidy hle hb a b' heq
  cases heq
  have hforest : (b.report q).forest base = b.forest base := by
    rw [report_eq]
    rfl
  rw [hforest]
  exact ⟨.report htidy hle q, h _ _ hb⟩

theorem finish {kind : PhraseKind}
    (h : ∀ L b base id pos stop, P L b → Q () [.phrase id kind pos stop L] (b.finish kind base)) :
    Meets P (fun base => Parser.finish kind base) Q := by
  intro base b htidy hle hb a b' heq
  cases (finish_eq_some.1 heq).2
  obtain ⟨id, pos, stop, hforest⟩ := forest_finish hle kind
  refine ⟨.finish htidy (Nat.le_refl _) hle kind, ?_⟩
  rw [hforest]
  exact h _ b base id pos stop hb

theorem flush
    (h : ∀ L b blanks, P L b → (∀ x ∈ blanks, x.isTrivia = true) → Q () (L ++ blanks) b.flush) :
    Meets P (fun _ => modify Builder.flush) Q := by
  intro base b htidy hle hb a b' heq
  cases heq
  obtain ⟨blanks, hpending, hblanks⟩ := flush_leaves htidy
  rw [forest_of_append hle hpending]
  exact ⟨.flush htidy hle, h _ _ blanks hb hblanks⟩

end Steps

/-- Behind a new mark there is nothing yet; in front of it everything stays. -/
theorem mark_bind {f : Nat → Parser α}
    (h : ∀ L b blanks, P L b → (∀ x ∈ blanks, x.isTrivia = true) →
      Meets (fun L' b' => L' = [] ∧ b' = b.flush) f fun a L' b' =>
        (b'.lastReport = none → b.lastReport = none) → Q a (L ++ blanks ++ L') b') :
    Meets P (fun _ => mark >>= f) Q := by
  intro base b htidy hle hb a b' heq
  obtain ⟨blanks, hpending, hblanks⟩ := flush_leaves htidy
  have hflush : Frame base b b.flush := .flush htidy hle
  obtain ⟨hframe, ha⟩ := h _ b blanks hb hblanks b.flush.pending.size b.flush hflush.tidy
    (Nat.le_refl _) ⟨forest_size _, rfl⟩ a b' heq
  refine ⟨hflush.trans (hframe.mono hflush.base_le), ?_⟩
  rw [forest_of_keeps hflush.base_le hframe.toKeeps, forest_of_append hle hpending]
  exact ha (hflush.clean ∘ hframe.clean)

/-- What a parser does where there is nothing yet, it does behind any nodes. -/
theorem on_top {p : Parser α}
    (h : ∀ L b, P L b → Meets (fun L' b' => L' = [] ∧ b' = b) (fun _ => p) fun a L' b' =>
      Q a (L ++ L') b') : Meets P (fun _ => p) Q := by
  intro base b htidy hle hb a b' heq
  obtain ⟨hframe, ha⟩ := h _ b hb b.pending.size b htidy (Nat.le_refl _) ⟨forest_size _, rfl⟩ a b'
    heq
  refine ⟨hframe.mono hle, ?_⟩
  rw [forest_of_keeps hle hframe.toKeeps]
  exact ha

/-- A list is finished at a mark in front of the blank text. -/
theorem listPhrase {kind : PhraseKind} {body : Parser Unit} {Q : Unit → Assertion}
    (h : ∀ L b, P L b → Meets (fun L' b' => L' = [] ∧ b' = b) (fun _ => body) fun _ L' b' =>
      (b'.lastReport = none → b.lastReport = none) →
        ∀ id pos stop start, Q () (L ++ [.phrase id kind pos stop L']) (b'.finish kind start)) :
    Meets P (fun _ => Parser.listPhrase kind body) Q := by
  intro base b htidy hle hb a b'' heq
  obtain ⟨start, b₁, hstart, heq⟩ := bind_eq_some.1 heq
  cases hstart
  obtain ⟨_, b', hbody, hfinish⟩ := bind_eq_some.1 heq
  cases (finish_eq_some.1 hfinish).2
  obtain ⟨hframe, ha⟩ := h _ b hb b.pending.size b htidy (Nat.le_refl _) ⟨forest_size _, rfl⟩ _ b'
    hbody
  have hfinish : Frame b.pending.size b (b'.finish kind b.pending.size) :=
    hframe.trans (.finish hframe.tidy (Nat.le_refl _) hframe.base_le kind)
  obtain ⟨id, pos, stop, hforest⟩ := forest_finish hframe.base_le kind
  refine ⟨hfinish.mono hle, ?_⟩
  rw [forest_of_keeps hle hfinish.toKeeps, hforest]
  exact ha hframe.clean id pos stop _

/-- Induction on the tokens left, with an invariant that holds between the steps. -/
theorem loop {step : Nat → Parser Bool} {Q : Unit → Assertion}
    (hstep : Meets P step fun go L b => if go then P L b else Q () L b) :
    Meets P (fun base => loop (step base)) Q := by
  intro base b htidy hle hb a b'' heq
  change Parser.loop (step base) b = some (a, b'') at heq
  induction hn : b.left using Nat.strongRecOn generalizing b with
  | ind n ih =>
      cases hs : step base b with
      | none => simp [Parser.loop, repeatFrom, hs] at heq
      | some r =>
          obtain ⟨go, b'⟩ := r
          obtain ⟨hframe, hgo⟩ := hstep base b htidy hle hb go b' hs
          cases go with
          | false =>
              rw [loop_of_stop hs] at heq
              cases heq
              exact ⟨hframe, hgo⟩
          | true =>
              -- a round that has taken no token leaves no result
              rw [loop_of_go hs] at heq
              split at heq
              next hlt =>
                obtain ⟨hframe', ha⟩ := ih b'.left (hn ▸ hlt) b' hframe.tidy hframe.base_le hgo heq rfl
                exact ⟨hframe.trans hframe', ha⟩
              next => cases heq

theorem loopWhile {go : Builder → Bool} {body : Nat → Parser Unit}
    (hbody : Meets (fun L b => P L b ∧ go b = true) body fun _ => P) :
    Meets P (fun base => loopWhile go (body base)) fun _ L b => P L b ∧ go b = false := by
  refine loop (get_bind fun b₀ => ite (fun hgo => ?_) fun hgo => ?_)
  · refine bind (hbody.imp ?_ fun _ _ _ => id) fun _ => pure fun _ _ => id
    rintro L b ⟨hb, rfl⟩
    exact ⟨hb, hgo⟩
  · refine pure ?_
    rintro L b ⟨hb, rfl⟩
    exact ⟨hb, by simpa using hgo⟩

theorem progress {body : Parser Unit} {Q : Unit → Assertion} (h : Meets P (fun _ => body) Q) :
    Meets P (fun _ => progress body) fun _ L b => Q () L b := by
  refine get_bind fun b₀ => (h.imp (fun _ _ hb => hb.1) fun _ _ _ => id).bind fun _ => ?_
  exact get_bind fun _ => pure fun _ _ hb => hb.1

/-- One level deeper, or one token as an error. -/
theorem nested {construct : Construct} {body : Parser Unit} {Q : Unit → Assertion}
    (herror : Meets (fun L b => P L b ∧ maxDepth ≤ b.depth) (fun _ =>
      Parser.report .nestingTooDeep >>= fun _ => skipToken (.missing construct)) Q)
    (hbody : Meets (fun L b => ∃ d, d < maxDepth ∧ b.depth = d + 1 ∧ P L { b with depth := d })
      (fun _ => body) fun _ L b => Q () L { b with depth := b.depth - 1 }) :
    Meets P (fun _ => nested construct body) Q := by
  refine get_bind fun b₀ => ite (fun hdeep => herror.imp (fun _ _ hb => ?_) fun _ _ _ => id)
    fun hdepth => ?_
  · exact ⟨hb.1, hb.2 ▸ hdeep⟩
  rintro base b htidy hle ⟨hb, rfl⟩ a b'' heq
  have hdown := (descend_bind (Nat.not_le.1 hdepth)).symm.trans heq
  obtain ⟨_, b', hbody', hup⟩ := bind_eq_some.1 hdown
  cases (modifyIf_eq_some.1 hup).2
  obtain ⟨hframe, ha⟩ := hbody base { b with depth := b.depth + 1 } ⟨htidy.ahead, htidy.trailing⟩ hle
    ⟨b.depth, Nat.not_le.1 hdepth, rfl, hb⟩ _ b' hbody'
  refine ⟨⟨⟨hframe.base_le, hframe.take_eq⟩, ⟨hframe.tidy.ahead, hframe.tidy.trailing⟩, ?_,
    hframe.clean, hframe.records, hframe.tokens⟩, ha⟩
  simp [hframe.depth_eq]

/-- Where there are tokens behind the mark, there are some afterwards. -/
theorem keeps_tokens (h : Meets P p Q) :
    Meets (fun L b => P L b ∧ (b.lastReport = none → Tree.tokensList L ≠ [])) p fun a L b =>
      Q a L b ∧ (b.lastReport = none → Tree.tokensList L ≠ []) := by
  rintro base b htidy hle ⟨hb, hne⟩ a b' heq
  obtain ⟨hframe, ha⟩ := h base b htidy hle hb a b' heq
  refine ⟨hframe, ha, fun hclean hnil => hne (hframe.clean hclean) ?_⟩
  exact List.prefix_nil.1 (hnil ▸ hframe.tokens_forest)

end Meets

/-! ### Invariants -/

/-- What holds behind the mark holds there afterwards. -/
def Maintains (I : Assertion) (p : Nat → Parser α) : Prop := Meets I p fun _ => I

namespace Maintains

variable {I : Assertion} {p : Nat → Parser α}

theorem pure (a : α) : Maintains I fun _ => (Pure.pure a : Parser α) := Meets.pure fun _ _ => id

theorem bind {f : α → Nat → Parser β} (hp : Maintains I p) (hf : ∀ a, Maintains I (f a)) :
    Maintains I fun base => p base >>= fun a => f a base :=
  Meets.bind hp hf

theorem ite {c : Prop} [Decidable c] {q : Nat → Parser α} (hp : Maintains I p)
    (hq : Maintains I q) : Maintains I fun base => if c then p base else q base :=
  Meets.ite (fun _ => hp) fun _ => hq

/-- A part that is left out under a condition, with what follows in any case. -/
theorem when {c : Prop} [Decidable c] {p : Nat → Parser Unit} {f : Unit → Nat → Parser β}
    (hp : Maintains I p) (hf : ∀ u, Maintains I (f u)) :
    Maintains I fun base => if c then p base >>= fun u => f u base else f () base :=
  ite (hp.bind hf) (hf ())

theorem get_bind {f : Builder → Nat → Parser α} (h : ∀ b, Maintains I (f b)) :
    Maintains I fun base => get >>= fun b => f b base :=
  Meets.get_bind fun b => (h b).imp (fun _ _ hb => hb.1) fun _ _ _ => id

theorem loop {step : Nat → Parser Bool} (h : Maintains I step) :
    Maintains I fun base => loop (step base) := by
  refine Meets.loop (h.imp (fun _ _ => id) fun go L b hb => ?_)
  cases go <;> exact hb

theorem loopWhile {go : Builder → Bool} {body : Nat → Parser Unit} (h : Maintains I body) :
    Maintains I fun base => loopWhile go (body base) :=
  (Meets.loopWhile (h.imp (fun _ _ hb => hb.1) fun _ _ _ => id)).imp (fun _ _ => id)
    fun _ _ _ hb => hb.1

theorem progress {body : Parser Unit} (h : Maintains I fun _ => body) :
    Maintains I fun _ => progress body :=
  Meets.progress h

end Maintains

/-- An invariant that single tokens and problems do not touch. -/
structure Steady (I : Assertion) : Prop where
  advance : Maintains I fun _ => advance
  report : ∀ q, Maintains I fun _ => report q

namespace Steady

variable {I : Assertion} (h : Steady I)
include h

theorem accept {k : TokenKind} : Maintains I fun _ => accept k :=
  .get_bind fun _ => .ite (h.advance.bind fun _ => .pure _) (.pure _)

theorem acceptKeyword {w : String} : Maintains I fun _ => acceptKeyword w :=
  .get_bind fun _ => .ite (h.advance.bind fun _ => .pure _) (.pure _)

theorem skipOptional {k : TokenKind} : Maintains I fun _ => skipOptional k :=
  h.accept.bind fun _ => .pure _

theorem skipOptionalKeyword {w : String} : Maintains I fun _ => skipOptionalKeyword w :=
  h.acceptKeyword.bind fun _ => .pure _

theorem expect? {k : TokenKind} {text : String} : Maintains I fun _ => expect? k text :=
  h.accept.bind fun _ => .ite (.pure _) ((h.report _).bind fun _ => .pure _)

theorem expect {k : TokenKind} {text : String} : Maintains I fun _ => expect k text :=
  h.expect?.bind fun _ => .pure _

theorem expectKeyword {w : String} : Maintains I fun _ => expectKeyword w :=
  h.acceptKeyword.bind fun _ => .ite (h.report _) (.pure _)

theorem endStatement : Maintains I fun _ => endStatement :=
  h.accept.bind fun _ => .ite (.get_bind fun _ => .ite (h.report _) (.pure _)) (.pure _)

theorem skipKeywords {ws : List String} :
    Maintains I fun _ => loopWhile (·.isAnyKeyword ws) Parser.advance :=
  .loopWhile h.advance

theorem balancedBraces : Maintains I fun _ => Grammar.balancedBraces := by
  have hgo (n depth : Nat) : Maintains I fun _ => Grammar.balancedBraces.go n depth := by
    induction n generalizing depth with
    | zero => exact Meets.failure
    | succ n ih =>
        apply Maintains.get_bind
        intro b
        cases b.kind? with
        | none => exact .pure _
        | some k =>
            cases k with
            | openBrace => exact h.advance.bind fun _ => ih _
            | closeBrace => exact h.advance.bind fun _ => .ite (ih _) (.pure _)
            | _ => exact h.advance.bind fun _ => ih _
  exact .get_bind fun _ => hgo _ _

theorem importTokens : Maintains I fun _ => Grammar.importTokens := by
  have hgo (n depth : Nat) : Maintains I fun _ => Grammar.importTokens.go n depth := by
    induction n generalizing depth with
    | zero => exact Meets.failure
    | succ n ih =>
        have hnext (depth : Nat) :
            Maintains I fun _ => (Parser.advance >>= fun _ => Grammar.importTokens.go n depth) :=
          h.advance.bind fun _ => ih depth
        apply Maintains.get_bind
        intro b
        cases b.kind? with
        | none => exact .pure _
        | some k =>
            cases k with
            | semicolon | closeTag | closeBrace =>
                cases depth with
                | zero => exact .pure _
                | succ depth => exact hnext _
            | openBrace => exact hnext _
            | _ => exact hnext _
  exact .get_bind fun _ => hgo _ _

end Steady

end Parser

/-- What a contract of the whole grammar says about the tree of a document. -/
theorem Document.exists_builder_of_meets {P : Parser.Assertion} {Q : Unit → Parser.Assertion}
    (h : Parser.Meets P (fun _ => Grammar.script) Q) (number : Nat) (uri text : String)
    (hP : P [] (.ofTokens (scan text).tokens.toList text.utf8ByteSize)) :
    ∃ b, Builder.parse (scan text).tokens.toList text.utf8ByteSize = some b ∧ b.Records ∧
      Q () [(Document.parse number uri text).tree] b := by
  obtain ⟨b, hparse, hpending, -⟩ := Document.exists_builder number uri text
  obtain ⟨⟨_, b'⟩, hscript, rfl⟩ := Option.map_eq_some_iff.1 hparse
  have htidy := Builder.tidy_ofTokens (scan text).tokens.toList text.utf8ByteSize
  obtain ⟨hframe, hQ⟩ := h 0 _ htidy (Nat.zero_le _) hP _ b' hscript
  rw [Builder.forest, List.drop_zero, hpending] at hQ
  exact ⟨b', hparse, hframe.records ⟨fun _ => rfl, fun _ => rfl⟩, hQ⟩

/-- The problems of a document are those of the scan and those of the grammar. -/
theorem Document.diagnostics_eq_nil_iff {uri text : String} {number : Nat} {b : Builder}
    (hparse : Builder.parse (scan text).tokens.toList text.utf8ByteSize = some b) (hb : b.Records) :
    (Document.parse number uri text).diagnostics = [] ↔
      (scan text).diagnostics = #[] ∧ b.lastReport = none := by
  rw [Builder.Records] at hb
  rw [← hb, ← List.length_eq_zero_iff, Document.parse, hparse]
  simp [List.length_mergeSort, Array.size_eq_zero_iff]

end ArrayShapes.Syntax
