import Mathlib.Data.List.Induction
import Mathlib.Data.Set.Card
import ArrayShapes.Proofs.Guard

/-!
What a guard knows of its history. All that is asked of a guard from its start decides which keys are
in progress, how many attempts have been made and whether a limit has been hit, so the guard says of
each of these what the history says. Keys may also be left that are not in progress; that changes
nothing.
-/

namespace ArrayShapes.Guard

variable {κ : Type}

/-! ### Histories -/

section Histories

variable [DecidableEq κ]

/-- The guard with these limits after all calls of a history. -/
def ofHistory (limits : Limits) (history : List (Call κ)) : Guard κ :=
  (ofLimits limits).afterAll history

/-- What comes of an attempt to enter a key after a history. -/
def attempt (limits : Limits) (history : List (Call κ)) (key : κ) : Outcome :=
  ((ofHistory limits history).enter key).1

/-- The key has been entered and has not been left since. -/
def InProgress (limits : Limits) (history : List (Call κ)) (key : κ) : Prop :=
  ∃ before since, history = before ++ .enter key :: since ∧
    attempt limits before key = .entered ∧ .leave key ∉ since

end Histories

def Call.isEnter : Call κ → Bool
  | .enter _ => true
  | .leave _ => false

/-- How many attempts a history has, whatever came of them. -/
def attempts (history : List (Call κ)) : Nat := history.countP Call.isEnter

/-- Where a call stands in a history with one more call: at its end or before. -/
theorem exists_concat_eq_iff {history : List (Call κ)} {last call : Call κ}
    {P : List (Call κ) → List (Call κ) → Prop} :
    (∃ before since, history ++ [last] = before ++ call :: since ∧ P before since) ↔
      (last = call ∧ P history []) ∨
        ∃ before since, history = before ++ call :: since ∧ P before (since ++ [last]) := by
  constructor
  · rintro ⟨before, since, heq, hP⟩
    rcases List.eq_nil_or_concat' since with rfl | ⟨since, c, rfl⟩
    · obtain ⟨rfl, hlast⟩ := List.append_inj' heq rfl
      exact .inl ⟨List.singleton_inj.1 hlast, hP⟩
    · rw [← List.cons_append, ← List.append_assoc] at heq
      obtain ⟨hhistory, hlast⟩ := List.append_inj' heq rfl
      exact .inr ⟨before, since, hhistory, List.singleton_inj.1 hlast ▸ hP⟩
  · rintro (⟨rfl, hP⟩ | ⟨before, since, rfl, hP⟩)
    · exact ⟨history, [], rfl, hP⟩
    · exact ⟨before, since ++ [last], by simp, hP⟩

variable [DecidableEq κ] {limits : Limits} {history : List (Call κ)} {key k : κ}

theorem ofHistory_concat (limits : Limits) (history : List (Call κ)) (call : Call κ) :
    ofHistory limits (history ++ [call]) = (ofHistory limits history).after call := by
  simp [ofHistory, afterAll_append]

@[simp]
theorem ofHistory_limits (limits : Limits) (history : List (Call κ)) :
    (ofHistory limits history).limits = limits := by
  induction history using List.reverseRecOn with
  | nil => rfl
  | append_singleton history call ih => rw [ofHistory_concat, after_limits, ih]

/-! ### Keys in progress -/

theorem inProgress_enter_iff :
    InProgress limits (history ++ [.enter key]) k ↔
      InProgress limits history k ∨ k = key ∧ attempt limits history key = .entered := by
  rw [InProgress, exists_concat_eq_iff, or_comm]
  refine or_congr ?_ ?_
  · simp [InProgress]
  · simp only [Call.enter.injEq, List.not_mem_nil, not_false_eq_true, and_true]
    constructor
    · rintro ⟨rfl, hent⟩
      exact ⟨rfl, hent⟩
    · rintro ⟨rfl, hent⟩
      exact ⟨rfl, hent⟩

theorem inProgress_leave_iff :
    InProgress limits (history ++ [.leave key]) k ↔ InProgress limits history k ∧ k ≠ key := by
  rw [InProgress, exists_concat_eq_iff]
  constructor
  · rintro (⟨hcall, -⟩ | ⟨before, since, rfl, hent, hkept⟩)
    · cases hcall
    · obtain ⟨hsince, hne⟩ : .leave k ∉ since ∧ k ≠ key := by simpa using hkept
      exact ⟨⟨before, since, rfl, hent, hsince⟩, hne⟩
  · rintro ⟨⟨before, since, rfl, hent, hsince⟩, hne⟩
    exact .inr ⟨before, since, rfl, hent, by simpa using ⟨hsince, hne⟩⟩

theorem nodup_active (limits : Limits) (history : List (Call κ)) :
    (ofHistory limits history).active.Nodup := by
  induction history using List.reverseRecOn with
  | nil => exact List.nodup_nil
  | append_singleton history call ih =>
      rw [ofHistory_concat]
      cases call with
      | enter key =>
          by_cases hent : ((ofHistory limits history).enter key).1 = .entered
          · have hnew := ((enter_eq_entered_iff _ key).1 hent).2.2
            rw [after, enter_active_of_entered hent]
            exact List.nodup_cons.2 ⟨hnew, ih⟩
          · rwa [after, enter_active_of_ne hent]
      | leave key => exact ih.erase key

/-- Induction on the history: a key comes in when it is entered and goes when it is left. -/
theorem mem_active_iff : k ∈ (ofHistory limits history).active ↔ InProgress limits history k := by
  induction history using List.reverseRecOn with
  | nil => simp [ofHistory, ofLimits, InProgress]
  | append_singleton history call ih =>
      rw [ofHistory_concat]
      cases call with
      | enter key =>
          rw [inProgress_enter_iff, ← ih]
          by_cases hent : ((ofHistory limits history).enter key).1 = .entered
          · rw [after, enter_active_of_entered hent, List.mem_cons, or_comm]
            simp [attempt, hent]
          · rw [after, enter_active_of_ne hent]
            simp [attempt, hent]
      | leave key =>
          rw [inProgress_leave_iff, ← ih, and_comm]
          exact (nodup_active limits history).mem_erase_iff

theorem depth_eq_ncard (limits : Limits) (history : List (Call κ)) :
    (ofHistory limits history).depth = {k | InProgress limits history k}.ncard := by
  have hset : {k | InProgress limits history k} =
      ((ofHistory limits history).active.toFinset : Set κ) := by
    ext k
    simp [mem_active_iff]
  rw [hset, Set.ncard_coe_finset, List.toFinset_card_of_nodup (nodup_active limits history), depth]

theorem depth_le (limits : Limits) (history : List (Call κ)) :
    (ofHistory limits history).depth ≤ limits.depth := by
  have hle := depth_afterAll_le (ofLimits limits) history
  have hstart : (ofLimits limits : Guard κ).depth = 0 := rfl
  rw [hstart, Nat.zero_max] at hle
  exact hle

/-! ### Attempts -/

theorem entries_eq (limits : Limits) (history : List (Call κ)) :
    (ofHistory limits history).entries = min (attempts history) maxEntries := by
  induction history using List.reverseRecOn with
  | nil => rfl
  | append_singleton history call ih =>
      rw [ofHistory_concat, attempts, List.countP_append, ← attempts]
      cases call with
      | enter key =>
          rw [after, enter_entries, ih]
          simp only [List.countP_singleton, Call.isEnter, if_true]
          omega
      | leave key => exact ih

theorem judge_eq_tooMany_iff (g : Guard κ) (entries : Nat) (key : κ) :
    g.judge entries key = .tooMany ↔ g.limits.entries < entries := by
  unfold judge
  by_cases hmany : entries > g.limits.entries
  · simp [hmany]
  · rw [if_neg hmany]
    split
    · simpa using hmany
    · split <;> simpa using hmany

/-- An attempt is one too many when as many as allowed were made before it, unless so many are
allowed that they cannot be counted. -/
theorem attempt_eq_tooMany_iff :
    attempt limits history key = .tooMany ↔
      limits.entries < maxEntries ∧ limits.entries ≤ attempts history := by
  rw [attempt, enter, judge_eq_tooMany_iff, ofHistory_limits, entries_eq]
  omega

/-! ### Limits that were hit -/

theorem isExceeded_iff {outcome : Outcome} :
    outcome.isExceeded = true ↔ outcome = .tooDeep ∨ outcome = .tooMany := by
  cases outcome <;> simp [Outcome.isExceeded]

theorem limitHit_iff :
    (ofHistory limits history).limitHit = true ↔
      ∃ key before since, history = before ++ .enter key :: since ∧
        (attempt limits before key).isExceeded = true := by
  induction history using List.reverseRecOn with
  | nil => simp [ofHistory, ofLimits]
  | append_singleton history call ih =>
      simp only [exists_concat_eq_iff, exists_or, ← ih, ofHistory_concat]
      cases call with
      | enter key => simp [after, enter, attempt, or_comm]
      | leave key => simp [after, leave]

/-! ### The guard and its history -/

/-- After any history the depth of the guard is the number of keys in progress, which its limits
bound. A key that is not entered leaves the keys in progress as they are. Attempts are refused for
their number exactly when as many as allowed were made before, so from then on all are. A limit has
been hit exactly when an attempt was refused for one. -/
theorem guard_agrees_with_history (limits : Limits) (history : List (Call κ)) :
    (ofHistory limits history).depth = {k | InProgress limits history k}.ncard ∧
    (ofHistory limits history).depth ≤ limits.depth ∧
    (∀ key, attempt limits history key ≠ .entered →
      ∀ k, InProgress limits (history ++ [.enter key]) k ↔ InProgress limits history k) ∧
    (∀ key, attempt limits history key = .tooMany →
      ∀ later key', attempt limits (history ++ .enter key :: later) key' = .tooMany) ∧
    (∀ key, attempt limits history key = .tooMany ↔
      limits.entries < maxEntries ∧ limits.entries ≤ attempts history) ∧
    ((ofHistory limits history).limitHit = true ↔
      ∃ key before since, history = before ++ .enter key :: since ∧
        (attempt limits before key = .tooDeep ∨ attempt limits before key = .tooMany)) := by
  refine ⟨depth_eq_ncard limits history, depth_le limits history, ?_, ?_,
    fun _ => attempt_eq_tooMany_iff, ?_⟩
  · intro key hdenied k
    rw [inProgress_enter_iff]
    simp [hdenied]
  · intro key hmany later key'
    obtain ⟨hmax, hle⟩ := attempt_eq_tooMany_iff.1 hmany
    refine attempt_eq_tooMany_iff.2 ⟨hmax, hle.trans ?_⟩
    exact (List.prefix_append history _).sublist.countP_le
  · simp only [limitHit_iff, isExceeded_iff]

/-- At the full depth a key that is in progress is refused for the depth and not as a cycle. -/
example : attempt ⟨2, 9⟩ [.enter 1, .enter 2] 1 = .tooDeep ∧ attempt ⟨2, 9⟩ [.enter 1] 1 = .cycle := by
  decide

end ArrayShapes.Guard
