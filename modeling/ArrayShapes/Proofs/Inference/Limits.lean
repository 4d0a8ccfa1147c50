import ArrayShapes.Proofs.Inference.Course

/-!
Limits that are not reported have no effect. A guard that has reported nothing has decided
everything as a wider guard decides it, whatever was counted before.
-/

namespace ArrayShapes

namespace Guard

variable {κ : Type}

/-- `w` allows all that `g` allows: with the same keys in progress, it has limits as large and has
counted no more attempts. -/
structure Wider (g w : Guard κ) : Prop where
  active : w.active = g.active
  entries : w.entries ≤ g.entries
  maxDepth : g.limits.depth ≤ w.limits.depth
  maxEntries : g.limits.entries ≤ w.limits.entries

theorem Wider.ofLimits {g : Guard κ} {wider : Limits} (h : g.active = [])
    (hd : g.limits.depth ≤ wider.depth) (he : g.limits.entries ≤ wider.entries) :
    Wider g (.ofLimits wider) where
  active := h.symm
  entries := Nat.zero_le _
  maxDepth := hd
  maxEntries := he

variable [DecidableEq κ] {g w : Guard κ} {key : κ}

/-- Where the smaller limits are not exceeded, both guards decide alike. -/
theorem Wider.enter_eq (h : Wider g w) (hok : (g.enter key).1.isExceeded = false) :
    (w.enter key).1 = (g.enter key).1 := by
  obtain ⟨he, hd⟩ := (judge_isExceeded_eq_false_iff g _ key).1 hok
  have he' : min (w.entries + 1) Guard.maxEntries ≤ w.limits.entries := by
    have := h.entries
    have := h.maxEntries
    omega
  have hd' : w.depth < w.limits.depth := by
    have := h.maxDepth
    rw [depth, h.active]
    exact Nat.lt_of_lt_of_le hd this
  calc
    _ = if key ∈ w.active then Outcome.cycle else .entered := judge_of_within he' hd' key
    _ = if key ∈ g.active then Outcome.cycle else .entered := by rw [h.active]
    _ = _ := (judge_of_within he hd key).symm

theorem Wider.enter (h : Wider g w) (hok : (g.enter key).1.isExceeded = false) :
    Wider (g.enter key).2 (w.enter key).2 where
  active := by
    by_cases hent : (g.enter key).1 = .entered
    · rw [enter_active_of_entered hent, enter_active_of_entered ((h.enter_eq hok).trans hent),
        h.active]
    · rw [enter_active_of_ne hent, enter_active_of_ne (h.enter_eq hok ▸ hent), h.active]
  entries := by
    have := h.entries
    simp only [enter_entries]
    omega
  maxDepth := h.maxDepth
  maxEntries := h.maxEntries

theorem Wider.leave (h : Wider g w) (key : κ) : Wider (g.leave key) (w.leave key) where
  active := congrArg (·.erase key) h.active
  entries := h.entries
  maxDepth := h.maxDepth
  maxEntries := h.maxEntries

end Guard

namespace Inference

open Syntax Project
open Inquiry (shapesOf)

variable {store : Store} {g g' w : Guard NodeKey} {q : Inquiry (List Shape)}
variable {calls : List (Guard.Call NodeKey)} {shapes : List Shape}

/-- What has not been reported in the end was not reported before. -/
theorem Course.limitHit_before (h : Course store g q calls shapes g')
    (hit : g'.limitHit = false) : g.limitHit = false := by
  induction h with
  | answer => exact hit
  | refused _ _ ih => exact (Bool.or_eq_false_iff.1 (ih hit)).1
  | entered _ _ _ ihs ihr => exact (Bool.or_eq_false_iff.1 (ihs (ihr hit))).1

/-- An inquiry that reports no limit goes the same way under a wider guard. -/
theorem Course.widen (h : Course store g q calls shapes g') (hit : g'.limitHit = false)
    (hw : g.Wider w) : ∃ w', Course store w q calls shapes w' ∧ g'.Wider w' := by
  induction h generalizing w with
  | answer => exact ⟨w, .answer, hw⟩
  | @refused g n next calls shapes g' outcome rest ih =>
      have hok := (Bool.or_eq_false_iff.1 (rest.limitHit_before hit)).2
      obtain ⟨w', hrest, hw'⟩ := ih hit (hw.enter hok)
      exact ⟨w', .refused (hw.enter_eq hok ▸ outcome) hrest, hw'⟩
  | @entered g n next inner found left calls shapes g' outcome strategies rest ihs ihr =>
      have hleft : left.limitHit = false := rest.limitHit_before hit
      have hok := (Bool.or_eq_false_iff.1 (strategies.limitHit_before hleft)).2
      obtain ⟨wleft, hstrategies, hwleft⟩ := ihs hleft (hw.enter hok)
      obtain ⟨w', hrest, hw'⟩ := ihr hit (hwleft.leave n.key)
      exact ⟨w', .entered ((hw.enter_eq hok).trans outcome) hstrategies hrest, hw'⟩

theorem resolve_widen (n : Node) (hit : (resolve store n g).2.limitHit = false)
    (hw : g.Wider w) : (resolve store n g).1 = (resolve store n w).1 := by
  obtain ⟨_, hg⟩ := resolve_course store n g
  obtain ⟨_, hw⟩ := resolve_course store n w
  obtain ⟨_, hwide, _⟩ := hg.widen hit ‹g.Wider w›
  exact (hwide.det hw).2.1

theorem mapM_resolve_cons (store : Store) (n : Node) (ns : List Node) (g : Guard NodeKey) :
    ((n :: ns).mapM (resolve store)).run g =
      ((resolve store n g).1 :: ((ns.mapM (resolve store)).run (resolve store n g).2).1,
        ((ns.mapM (resolve store)).run (resolve store n g).2).2) := by
  rw [List.mapM_cons]
  rfl

theorem mapM_resolve_limitHit_before (store : Store) (ns : List Node) (g : Guard NodeKey)
    (hit : ((ns.mapM (resolve store)).run g).2.limitHit = false) : g.limitHit = false := by
  induction ns generalizing g with
  | nil => exact hit
  | cons n ns ih =>
      rw [mapM_resolve_cons] at hit
      obtain ⟨_, h⟩ := resolve_course store n g
      exact h.limitHit_before (ih _ hit)

theorem mapM_resolve_eq_map {wider : Limits} (store : Store) (ns : List Node)
    (g : Guard NodeKey) (hg : g.active = []) (hd : g.limits.depth ≤ wider.depth)
    (he : g.limits.entries ≤ wider.entries)
    (hit : ((ns.mapM (resolve store)).run g).2.limitHit = false) :
    ((ns.mapM (resolve store)).run g).1 =
      ns.map fun n => ((resolve store n).run (.ofLimits wider)).1 := by
  induction ns generalizing g with
  | nil => rfl
  | cons n ns ih =>
      rw [mapM_resolve_cons] at hit ⊢
      obtain ⟨_, h⟩ := resolve_course store n g
      have hfirst := resolve_widen n (mapM_resolve_limitHit_before store ns _ hit)
        (.ofLimits hg hd he)
      have hrest := ih (resolve store n g).2 (h.active_eq.trans hg) (h.limits_eq ▸ hd)
        (h.limits_eq ▸ he) hit
      exact List.cons_eq_cons.2 ⟨hfirst, hrest⟩

/-- When nodes are resolved one after the other under one guard and no limit is reported in the
end, each has the shapes it has alone, under a new guard with limits at least as large. -/
theorem mapM_resolve_of_unreported (store : Store) (ns : List Node) (limits wider : Limits)
    (hd : limits.depth ≤ wider.depth) (he : limits.entries ≤ wider.entries)
    (hit : ((ns.mapM (resolve store)).run (.ofLimits limits)).2.limitHit = false) :
    ((ns.mapM (resolve store)).run (.ofLimits limits)).1 =
      ns.map fun n => ((resolve store n).run (.ofLimits wider)).1 :=
  mapM_resolve_eq_map store ns (.ofLimits limits) rfl hd he hit

/-- The node of `[7]`, alone in its document. -/
def sevenInArray : Node :=
  let bracket : Token := ⟨.openBracket, 0, "["⟩
  let seven : Token := ⟨.integerLiteral, 1, "7"⟩
  let close : Token := ⟨.closeBracket, 2, "]"⟩
  let value := Tree.phrase 2 .arrayValue 1 2 [.token 1 seven]
  let list := Tree.phrase 4 .arrayInitialiserList 1 2 [.phrase 3 .arrayElement 1 2 [value]]
  let array := Tree.phrase 6 .arrayCreationExpression 0 3
    [.token 0 bracket, list, .token 5 close]
  let elements := ((((Arena.empty.addToken bracket).addToken seven).addPhrase [1]).addPhrase
    [2]).addPhrase [3]
  let arena := (elements.addToken close).addPhrase [0, 4, 5]
  ⟨⟨0, "seven", "[7]", array, arena, [], .ofText "[7]", []⟩, array, .root⟩

theorem mapM_resolve_sevenInArray :
    (([sevenInArray, sevenInArray].mapM (resolve .empty)).run (.ofLimits ⟨2, 4⟩)).2.limitHit =
        false ∧
      (([sevenInArray, sevenInArray].mapM (resolve .empty)).run (.ofLimits ⟨2, 4⟩)).1 =
        [sevenInArray, sevenInArray].map fun n =>
          ((resolve .empty n).run (.ofLimits .expression)).1 :=
  ⟨by rfl, mapM_resolve_of_unreported .empty [sevenInArray, sevenInArray] ⟨2, 4⟩ .expression
    (by decide) (by decide) (by rfl)⟩

end Inference

end ArrayShapes
