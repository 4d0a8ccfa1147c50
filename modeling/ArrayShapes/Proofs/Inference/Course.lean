import ArrayShapes.Inference.Resolve
import ArrayShapes.Proofs.Guard

/-!
How an inquiry goes, told without fuel: what is asked of the guard, in order, what is found and the
guard that is left. Every inquiry goes in exactly one way, and resolution finds it.
-/

namespace ArrayShapes.Inference

open Syntax Project
open Inquiry (shapesOf shapesOfAll)

theorem Inquiry.bind_assoc {α β γ : Type} (q : Inquiry α) (f : α → Inquiry β) (k : β → Inquiry γ) :
    (q.bind f).bind k = q.bind fun a => (f a).bind k := by
  induction q with
  | answer a => rfl
  | ask n next ih =>
      simp only [Inquiry.bind]
      exact congrArg (Inquiry.ask n) (funext ih)

theorem shapesOfAll_cons_bind (n : Node) (ns : List Node) (f : List Shape → Inquiry (List Shape)) :
    (shapesOfAll (n :: ns)).bind f =
      .ask n fun found => (shapesOfAll ns).bind fun more => f (found ++ more) := by
  refine congrArg (Inquiry.ask n) (funext fun found => ?_)
  exact Inquiry.bind_assoc (shapesOfAll ns) (fun more => .answer (found ++ more)) f

/-- The course of an inquiry under a guard. A node that may not be entered has no shapes. One that
may be is left again when its strategies are through. -/
inductive Course (store : Store) :
    Guard NodeKey → Inquiry (List Shape) → List (Guard.Call NodeKey) → List Shape →
      Guard NodeKey → Prop where
  | answer {g shapes} : Course store g (.answer shapes) [] shapes g
  | refused {g n next calls shapes g'}
      (outcome : (g.enter n.key).1 ≠ .entered)
      (rest : Course store (g.enter n.key).2 (next []) calls shapes g') :
      Course store g (.ask n next) (.enter n.key :: calls) shapes g'
  | entered {g n next inner found left calls shapes g'}
      (outcome : (g.enter n.key).1 = .entered)
      (strategies : Course store (g.enter n.key).2 (strategies store n) inner found left)
      (rest : Course store (left.leave n.key) (next found) calls shapes g') :
      Course store g (.ask n next) (.enter n.key :: (inner ++ .leave n.key :: calls)) shapes g'

namespace Course

variable {store : Store} {g g' : Guard NodeKey} {q : Inquiry (List Shape)}
variable {calls : List (Guard.Call NodeKey)} {shapes : List Shape}

/-- The guard changes by the calls made of it and by nothing else. -/
theorem guard_eq (h : Course store g q calls shapes g') : g' = g.afterAll calls := by
  induction h with
  | answer => rfl
  | refused _ _ ih => exact ih
  | @entered g n _ inner _ left calls _ _ _ _ _ ihs ihr =>
      calc
        _ = (left.leave n.key).afterAll calls := ihr
        _ = (((g.enter n.key).2.afterAll inner).leave n.key).afterAll calls := by rw [ihs]
        _ = _ := (Guard.afterAll_append (g.enter n.key).2 inner (.leave n.key :: calls)).symm

/-- What was in progress before an inquiry is in progress after it, and nothing else is. -/
theorem active_eq (h : Course store g q calls shapes g') : g'.active = g.active := by
  induction h with
  | answer => rfl
  | refused outcome _ ih => rw [ih, Guard.enter_active_of_ne outcome]
  | entered outcome _ _ ihs ihr =>
      rw [ihr, Guard.leave, ihs, Guard.enter_active_of_entered outcome, List.erase_cons_head]

theorem limits_eq (h : Course store g q calls shapes g') : g'.limits = g.limits := by
  induction h with
  | answer => rfl
  | refused _ _ ih => exact ih
  | entered _ _ _ ihs ihr => exact ihr.trans ihs

/-- An inquiry goes in one way only. -/
theorem det {calls₁ calls₂ : List (Guard.Call NodeKey)} {shapes₁ shapes₂ : List Shape}
    {g₁ g₂ : Guard NodeKey} (h₁ : Course store g q calls₁ shapes₁ g₁)
    (h₂ : Course store g q calls₂ shapes₂ g₂) :
    calls₁ = calls₂ ∧ shapes₁ = shapes₂ ∧ g₁ = g₂ := by
  induction h₁ generalizing calls₂ shapes₂ g₂ with
  | answer => cases h₂; exact ⟨rfl, rfl, rfl⟩
  | refused outcome _ ih =>
      cases h₂ with
      | refused _ rest =>
          obtain ⟨rfl, rfl, rfl⟩ := ih rest
          exact ⟨rfl, rfl, rfl⟩
      | entered outcome' _ _ => exact absurd outcome' outcome
  | entered outcome _ _ ihs ihr =>
      cases h₂ with
      | refused outcome' _ => exact absurd outcome outcome'
      | entered _ strategies rest =>
          obtain ⟨rfl, rfl, rfl⟩ := ihs strategies
          obtain ⟨rfl, rfl, rfl⟩ := ihr rest
          exact ⟨rfl, rfl, rfl⟩

/-- An inquiry that asks for a node goes as the node alone does, and then on with its shapes. -/
theorem ask {n : Node} {next : List Shape → Inquiry (List Shape)} {found : List Shape}
    {left : Guard NodeKey} {asked : List (Guard.Call NodeKey)}
    (first : Course store g (shapesOf n) asked found left)
    (rest : Course store left (next found) calls shapes g') :
    Course store g (.ask n next) (asked ++ calls) shapes g' := by
  cases first with
  | refused outcome done => cases done; exact .refused outcome rest
  | entered outcome strategies done =>
      cases done
      simpa using Course.entered outcome strategies rest

/-- Under a resolver that finds the course of each node, an inquiry is run by its course, as long
as nothing more than now is in progress whenever a node is asked for. -/
theorem of_run {r : Resolver} (q : Inquiry (List Shape))
    (hr : ∀ n (g₀ : Guard NodeKey), g₀.active = g.active → g₀.limits = g.limits →
      ∃ calls, Course store g₀ (shapesOf n) calls (r n g₀).1 (r n g₀).2) :
    ∃ calls, Course store g q calls (q.run r g).1 (q.run r g).2 := by
  induction q generalizing g with
  | answer shapes => exact ⟨[], .answer⟩
  | ask n next ih =>
      obtain ⟨asked, first⟩ := hr n g rfl rfl
      obtain ⟨calls, rest⟩ := ih (r n g).1 (g := (r n g).2) fun m g₀ ha hl =>
        hr m g₀ (ha.trans first.active_eq) (hl.trans first.limits_eq)
      exact ⟨asked ++ calls, first.ask rest⟩

end Course

/-! ### Resolution -/

/-- Resolution of a node, with the guard written out. -/
theorem resolveWith_succ (store : Store) (fuel : Nat) (n : Node) (g : Guard NodeKey) :
    resolveWith store (fuel + 1) n g =
      if (g.enter n.key).1 = .entered then
        let found := (strategies store n).run (resolveWith store fuel) (g.enter n.key).2
        (found.1, found.2.leave n.key)
      else ([], (g.enter n.key).2) := by
  rw [resolveWith]
  simp only [bind, StateT.bind, modifyGet, MonadStateOf.modifyGet, StateT.modifyGet]
  obtain ⟨outcome, g₁⟩ := g.enter n.key
  cases outcome <;> rfl

/-- Each level of fuel is a node in progress, so fuel for as many as the guard still allows, and
for the one that it refuses, is enough. -/
theorem resolveWith_course (store : Store) (fuel : Nat) (n : Node) (g : Guard NodeKey)
    (h : g.limits.depth ≤ g.depth + fuel) :
    ∃ calls, Course store g (shapesOf n) calls (resolveWith store (fuel + 1) n g).1
      (resolveWith store (fuel + 1) n g).2 := by
  induction fuel using Nat.strongRecOn generalizing n g with
  | ind fuel ih =>
      by_cases hent : (g.enter n.key).1 = .entered
      · have hdepth := ((Guard.enter_eq_entered_iff g n.key).1 hent).2.1
        have hactive := Guard.enter_active_of_entered hent
        -- the node is in progress from now on, which makes up for the fuel it takes
        obtain ⟨fuel, rfl⟩ : ∃ less, fuel = less + 1 := ⟨fuel - 1, by omega⟩
        obtain ⟨inner, hinner⟩ := Course.of_run (r := resolveWith store (fuel + 1))
          (strategies store n)
          fun m (g₀ : Guard NodeKey) (ha : g₀.active = (g.enter n.key).2.active) hl =>
            ih fuel (Nat.lt_succ_self fuel) m g₀ (by
              have : g₀.depth = g.depth + 1 := by simp [Guard.depth, ha, hactive]
              rw [hl, Guard.enter_limits]
              omega)
        rw [resolveWith_succ, if_pos hent]
        exact ⟨_, .entered hent hinner .answer⟩
      · rw [resolveWith_succ, if_neg hent]
        exact ⟨_, .refused hent .answer⟩

theorem resolve_course (store : Store) (n : Node) (g : Guard NodeKey) :
    ∃ calls, Course store g (shapesOf n) calls (resolve store n g).1 (resolve store n g).2 :=
  resolveWith_course store g.limits.depth n g (Nat.le_add_left ..)

/-- Whatever a store holds, resolving a node comes to an end: it goes by a course. No more nodes
are in progress at any moment of it than the limits allow, and at the end exactly the nodes from
before are in progress. The strategies are run for no more nodes than there are attempts left, if the
count of attempts can pass its limit at all. -/
theorem resolve_stops_and_restores (store : Store) (n : Node) (g : Guard NodeKey) :
    ∃ calls, Course store g (shapesOf n) calls (resolve store n g).1 (resolve store n g).2 ∧
      (resolve store n g).2 = g.afterAll calls ∧
      (∀ made, made <+: calls → (g.afterAll made).depth ≤ max g.depth g.limits.depth) ∧
      (g.limits.entries < Guard.maxEntries →
        g.entered calls ≤ g.limits.entries - g.entries) ∧
      (resolve store n g).2.active = g.active := by
  obtain ⟨calls, h⟩ := resolve_course store n g
  refine ⟨calls, h, h.guard_eq, ?_, Guard.entered_le g calls, h.active_eq⟩
  intro made _
  exact Guard.depth_afterAll_le g made

/-! ### No limit on attempts

The count of attempts stays at its greatest number, so a limit as large as that is none. Then nodes
that all ask for each other are gone through in every order.
-/

/-- How many ways there are to enter some of `m` nodes, at least one, one inside the other. -/
def arrangements : Nat → Nat
  | 0 => 0
  | m + 1 => (m + 1) * (arrangements m + 1)

theorem countP_notMem_le {keys : List NodeKey} (h : keys.Nodup) (key : NodeKey)
    (active : List NodeKey) :
    keys.countP (· ∉ active) ≤ keys.countP (· ∉ key :: active) + 1 := by
  have hfilter : keys.filter (· ∉ key :: active) = (keys.filter (· ∉ active)).erase key := by
    rw [List.Nodup.erase_eq_filter (h.filter _), List.filter_filter]
    refine List.filter_congr fun other _ => ?_
    by_cases hother : other = key <;> simp [hother]
  rw [List.countP_eq_length_filter, List.countP_eq_length_filter, hfilter, List.length_erase]
  split <;> omega

namespace Course

variable {store : Store} {limits : Limits} {active : List NodeKey} {g g' : Guard NodeKey}
variable {calls : List (Guard.Call NodeKey)} {shapes : List Shape}
variable {f : List Shape → Inquiry (List Shape)}

/-- If nodes are asked for one after the other, each of them that is not in progress runs its
strategies, and these run the strategies of `k` other nodes or more. -/
theorem countP_mul_le_entered {k : Nat} {ns : List Node}
    (hinner : ∀ n ∈ ns, ∀ g calls found left, g.active = n.key :: active → g.limits = limits →
      Course store g (strategies store n) calls found left → k ≤ g.entered calls)
    (hdepth : active.length < limits.depth) (hentries : Guard.maxEntries ≤ limits.entries)
    (hactive : g.active = active) (hlimits : g.limits = limits)
    (h : Course store g ((shapesOfAll ns).bind f) calls shapes g') :
    (ns.map Node.key).countP (· ∉ active) * (k + 1) ≤ g.entered calls := by
  induction ns generalizing g f calls with
  | nil => simp
  | cons n ns ih =>
      obtain ⟨hn, hns⟩ := List.forall_mem_cons.1 hinner
      have henter : (g.enter n.key).1 = .entered ↔ n.key ∉ active := by
        have hmin : min (g.entries + 1) Guard.maxEntries ≤ limits.entries :=
          Nat.le_trans (Nat.min_le_right ..) hentries
        rw [Guard.enter_eq_entered_iff, Guard.depth, hactive, hlimits]
        exact ⟨fun h => h.2.2, fun h => ⟨hmin, hdepth, h⟩⟩
      rw [shapesOfAll_cons_bind] at h
      rw [List.map_cons, List.countP_cons]
      cases h with
      | refused outcome rest =>
          have hkey : n.key ∈ active := Decidable.not_not.1 (mt henter.2 outcome)
          have hle := ih hns ((Guard.enter_active_of_ne outcome).trans hactive) hlimits rest
          simpa [Guard.entered, outcome, hkey] using hle
      | @entered _ _ _ inner _ left calls _ _ outcome strategies rest =>
          have hkey := henter.1 outcome
          have hentered : (g.enter n.key).2.active = n.key :: active := by
            rw [Guard.enter_active_of_entered outcome, hactive]
          have hleft : (left.leave n.key).active = active := by
            rw [Guard.leave, strategies.active_eq, hentered, List.erase_cons_head]
          have hle := hn _ _ _ _ hentered hlimits strategies
          have hrest := ih hns hleft (strategies.limits_eq.trans hlimits) rest
          have hafter : left.leave n.key = ((g.enter n.key).2.afterAll inner).leave n.key := by
            rw [strategies.guard_eq]
          rw [hafter] at hrest
          simp only [Guard.entered, Guard.entered_append, if_pos outcome, hkey, not_false_eq_true,
            decide_true, if_true, Nat.add_mul]
          omega

section Circular

variable {ns : List Node} {m : Nat} (hdistinct : (ns.map Node.key).Nodup)
  (hasks : ∀ n ∈ ns, ∃ f, strategies store n = (shapesOfAll ns).bind f)
  (hentries : Guard.maxEntries ≤ limits.entries)
include hdistinct hasks hentries

/-- Induction on the number of nodes that are not in progress yet. -/
theorem arrangements_le_entered
    (hfree : m ≤ (ns.map Node.key).countP (· ∉ active)) (hdepth : active.length + m ≤ limits.depth)
    (hactive : g.active = active) (hlimits : g.limits = limits)
    (h : Course store g ((shapesOfAll ns).bind f) calls shapes g') :
    arrangements m ≤ g.entered calls := by
  induction m generalizing active g f calls shapes g' with
  | zero => exact Nat.zero_le _
  | succ m ih =>
      refine Nat.le_trans (Nat.mul_le_mul_right _ hfree)
        (countP_mul_le_entered ?_ (by omega) hentries hactive hlimits h)
      intro n hn g calls found left hactive hlimits h
      obtain ⟨f, hf⟩ := hasks n hn
      have hless := countP_notMem_le hdistinct n.key active
      rw [hf] at h
      exact ih (by omega) (by simp only [List.length_cons]; omega) hactive hlimits h

/-- Under a new guard one of the nodes is entered, and after it the others in every order. -/
theorem arrangements_lt_entered {n : Node} (hn : n ∈ ns) (hlength : ns.length = m + 1)
    (hdepth : m < limits.depth)
    (h : Course store (.ofLimits limits) (shapesOf n) calls shapes g') :
    arrangements m < (Guard.ofLimits limits : Guard NodeKey).entered calls := by
  have hone : shapesOf n = (shapesOfAll [n]).bind .answer := by
    rw [shapesOfAll_cons_bind]
    refine congrArg (Inquiry.ask n) (funext fun found => ?_)
    exact congrArg Inquiry.answer (List.append_nil found).symm
  have hfree : m ≤ (ns.map Node.key).countP (· ∉ [n.key]) := by
    have hless := countP_notMem_le hdistinct n.key []
    have hall : (ns.map Node.key).countP (· ∉ []) = m + 1 := by simp [hlength]
    omega
  have hinner : ∀ other ∈ [n], ∀ g calls found left, g.active = [other.key] → g.limits = limits →
      Course store g (strategies store other) calls found left →
        arrangements m ≤ g.entered calls := by
    intro other hother g calls found left hactive hlimits h
    cases List.mem_singleton.1 hother
    obtain ⟨f, hf⟩ := hasks n hn
    rw [hf] at h
    exact arrangements_le_entered hdistinct hasks hentries hfree (by simp; omega) hactive hlimits h
  rw [hone] at h
  have hle := countP_mul_le_entered hinner (Nat.zero_lt_of_lt hdepth) hentries rfl rfl h
  exact Nat.lt_of_succ_le (by simpa using hle)

end Circular

end Course

/-- A function that returns what it returns, fourteen times over. -/
def circular : Store :=
  .ofSources [("f.php",
    "<?php function f()\x7b" ++ String.join (List.replicate 14 "return f();") ++ "\x7d")]

/-- The strategies for each of the calls ask for all of them. -/
theorem exists_circular_calls : ∃ ns : List Node, ns.length = 14 ∧ (ns.map Node.key).Nodup ∧
    ∀ n ∈ ns, ∃ f, strategies circular n = (shapesOfAll ns).bind f := by
  have h : (circular.declarations (.ofFunction "f")).map (fun function =>
      (bodyOf? function).map fun body =>
        let ns := (returnsOf body).filterMap returned?
        (decide (ns.map Node.key).Nodup, ns.map fun n => (n.phraseKind?, referenceOf? n))) =
      [some (true, List.replicate 14
        (some .functionCallExpression, some (.ofFunction "f")))] := by decide +kernel
  obtain ⟨function, hfunction, h⟩ := List.map_eq_singleton_iff.1 h
  obtain ⟨body, hbody, h⟩ := Option.map_eq_some_iff.1 h
  obtain ⟨hdistinct, hcalls⟩ := Prod.mk.inj h
  refine ⟨(returnsOf body).filterMap returned?, ?_, of_decide_eq_true hdistinct, fun n hn => ?_⟩
  · simpa using congrArg List.length hcalls
  · have hn := List.eq_of_mem_replicate (hcalls ▸ List.mem_map_of_mem hn)
    obtain ⟨hkind, hreference⟩ := Prod.mk.inj hn
    have harray : arrayShapes n = .answer [] := by
      rw [arrayShapes, Node.isPhrase, hkind]
      rfl
    have hcall : callShapes circular n =
        (shapesOfAll ((returnsOf body).filterMap returned?)).bind fun returned =>
          .answer (documentedResults circular function ++ returned ++ []) := by
      rw [callShapes, Node.isPhraseIn, hkind, hreference]
      simp only [hfunction, calledShapes, returnedShapes, hbody]
      rfl
    have hstrategies : ∃ f, strategies circular n = (callShapes circular n).bind f := by
      rw [strategies, harray]
      exact ⟨_, rfl⟩
    obtain ⟨f, hf⟩ := hstrategies
    rw [hf, hcall, Inquiry.bind_assoc]
    exact ⟨_, rfl⟩

/-- So a call of the function runs more strategies than there can be attempts. -/
theorem not_forall_entered_le :
    ¬∀ (store : Store) (n : Node) (limits : Limits), ∃ calls,
      Course store (.ofLimits limits) (shapesOf n) calls
        (resolve store n (.ofLimits limits)).1 (resolve store n (.ofLimits limits)).2 ∧
      (Guard.ofLimits limits : Guard NodeKey).entered calls ≤ limits.entries := by
  intro h
  obtain ⟨ns, hlength, hdistinct, hasks⟩ := exists_circular_calls
  obtain ⟨n, hn⟩ : ∃ n, n ∈ ns := List.exists_mem_of_length_pos (by omega)
  obtain ⟨calls, hcourse, hle⟩ := h circular n ⟨14, Guard.maxEntries⟩
  have hmany := hcourse.arrangements_lt_entered hdistinct hasks (Nat.le_refl _) hn hlength (by decide)
  have hgreat : Guard.maxEntries < arrangements 13 := by decide
  exact Nat.lt_irrefl _ (Nat.lt_of_lt_of_le (Nat.lt_trans hgreat hmany) hle)

end ArrayShapes.Inference
