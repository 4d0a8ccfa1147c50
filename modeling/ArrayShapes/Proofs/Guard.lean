import ArrayShapes.Guard

/-!
Guards over whole runs. Whatever is asked of a guard, no more keys are in progress than its limits
allow, and no more keys are entered than it allows attempts.

The count of attempts stays at `maxEntries`. A guard whose limit is that large never refuses a key
for the number of attempts, so what is said about their number is said about smaller limits.
-/

namespace ArrayShapes.Guard

variable {κ : Type} [DecidableEq κ]

/-! ### One attempt -/

@[simp]
theorem enter_limits (g : Guard κ) (key : κ) : (g.enter key).2.limits = g.limits := rfl

theorem enter_entries (g : Guard κ) (key : κ) :
    (g.enter key).2.entries = min (g.entries + 1) maxEntries := rfl

/-- Below a limit that can be passed each attempt is counted. -/
theorem enter_entries_of_lt {g : Guard κ} {key : κ} (h : g.entries < g.limits.entries)
    (hmax : g.limits.entries < maxEntries) : (g.enter key).2.entries = g.entries + 1 := by
  rw [enter_entries]
  omega

theorem judge_of_within {g : Guard κ} {entries : Nat} (he : entries ≤ g.limits.entries)
    (hd : g.depth < g.limits.depth) (key : κ) :
    g.judge entries key = if key ∈ g.active then .cycle else .entered := by
  rw [judge, if_neg (Nat.not_lt.2 he), if_neg (Nat.not_le.2 hd)]

theorem judge_isExceeded_eq_false_iff (g : Guard κ) (entries : Nat) (key : κ) :
    (g.judge entries key).isExceeded = false ↔
      entries ≤ g.limits.entries ∧ g.depth < g.limits.depth := by
  by_cases h : entries ≤ g.limits.entries ∧ g.depth < g.limits.depth
  · rw [judge_of_within h.1 h.2]
    split <;> simp [Outcome.isExceeded, h]
  · unfold judge
    split
    · simp [Outcome.isExceeded, h]
    · rw [if_pos (by omega)]
      simp [Outcome.isExceeded, h]

theorem judge_eq_entered_iff (g : Guard κ) (entries : Nat) (key : κ) :
    g.judge entries key = .entered ↔
      entries ≤ g.limits.entries ∧ g.depth < g.limits.depth ∧ key ∉ g.active := by
  constructor
  · intro h
    obtain ⟨he, hd⟩ := (judge_isExceeded_eq_false_iff g entries key).1 (by rw [h]; rfl)
    rw [judge_of_within he hd] at h
    exact ⟨he, hd, fun hmem => by simp [hmem] at h⟩
  · rintro ⟨he, hd, hmem⟩
    rw [judge_of_within he hd, if_neg hmem]

/-- A key is entered exactly when neither limit is reached and the key is not in progress. -/
theorem enter_eq_entered_iff (g : Guard κ) (key : κ) :
    (g.enter key).1 = .entered ↔
      min (g.entries + 1) maxEntries ≤ g.limits.entries ∧ g.depth < g.limits.depth ∧
        key ∉ g.active :=
  judge_eq_entered_iff ..

theorem enter_active_of_entered {g : Guard κ} {key : κ} (h : (g.enter key).1 = .entered) :
    (g.enter key).2.active = key :: g.active :=
  if_pos h

theorem enter_active_of_ne {g : Guard κ} {key : κ} (h : (g.enter key).1 ≠ .entered) :
    (g.enter key).2.active = g.active :=
  if_neg h

/-! ### Runs -/

/-- What is asked of a guard. -/
inductive Call (κ : Type) where
  | enter (key : κ)
  | leave (key : κ)

/-- The guard after a call. -/
def after (g : Guard κ) : Call κ → Guard κ
  | .enter key => (g.enter key).2
  | .leave key => g.leave key

/-- The guard after some calls, one after the other. -/
def afterAll (g : Guard κ) (calls : List (Call κ)) : Guard κ := calls.foldl after g

/-- How many of some calls enter a key. -/
def entered (g : Guard κ) : List (Call κ) → Nat
  | [] => 0
  | .enter key :: calls =>
    (if (g.enter key).1 = .entered then 1 else 0) + entered (g.enter key).2 calls
  | .leave key :: calls => entered (g.leave key) calls

@[simp]
theorem afterAll_nil (g : Guard κ) : g.afterAll [] = g := rfl

@[simp]
theorem afterAll_cons (g : Guard κ) (call : Call κ) (calls : List (Call κ)) :
    g.afterAll (call :: calls) = (g.after call).afterAll calls := rfl

theorem afterAll_append (g : Guard κ) (calls more : List (Call κ)) :
    g.afterAll (calls ++ more) = (g.afterAll calls).afterAll more :=
  List.foldl_append

theorem entered_append (g : Guard κ) (calls more : List (Call κ)) :
    g.entered (calls ++ more) = g.entered calls + (g.afterAll calls).entered more := by
  induction calls generalizing g with
  | nil => exact (Nat.zero_add _).symm
  | cons call calls ih =>
      cases call with
      | enter key =>
          simp only [List.cons_append, entered, ih, afterAll_cons, after]
          omega
      | leave key => exact ih (g.leave key)

theorem after_limits (g : Guard κ) (call : Call κ) : (g.after call).limits = g.limits := by
  cases call <;> rfl

theorem depth_after_le (g : Guard κ) (call : Call κ) :
    (g.after call).depth ≤ max g.depth g.limits.depth := by
  cases call with
  | enter key =>
      by_cases h : (g.enter key).1 = .entered
      · have hlt := ((enter_eq_entered_iff g key).1 h).2.1
        simp only [after, depth, enter_active_of_entered h, List.length_cons] at hlt ⊢
        omega
      · simp only [after, depth, enter_active_of_ne h]
        omega
  | leave key =>
      have := List.length_erase_le (a := key) (l := g.active)
      simp only [after, leave, depth]
      omega

/-- No run brings more keys in progress than the limits allow, or than there were at its start. -/
theorem depth_afterAll_le (g : Guard κ) (calls : List (Call κ)) :
    (g.afterAll calls).depth ≤ max g.depth g.limits.depth := by
  induction calls generalizing g with
  | nil => simp only [afterAll_nil]; omega
  | cons call calls ih =>
      have hstep := depth_after_le g call
      have hrest := ih (g.after call)
      rw [after_limits] at hrest
      rw [afterAll_cons]
      omega

/-- A run enters no more keys than the limits have attempts left for, as long as the count of
attempts can pass the limit at all. -/
theorem entered_le (g : Guard κ) (calls : List (Call κ)) (h : g.limits.entries < maxEntries) :
    g.entered calls ≤ g.limits.entries - g.entries := by
  induction calls generalizing g with
  | nil => exact Nat.zero_le _
  | cons call calls ih =>
      cases call with
      | enter key =>
          have hrest := ih (g.enter key).2 h
          rw [enter_limits, enter_entries] at hrest
          simp only [entered]
          by_cases hent : (g.enter key).1 = .entered
          · have := ((enter_eq_entered_iff g key).1 hent).1
            rw [if_pos hent]
            omega
          · rw [if_neg hent]
            omega
      | leave key => exact ih (g.leave key) h

end ArrayShapes.Guard
