/-!
Guards for work that follows references wherever they lead. A guard knows the keys in progress and
counts the attempts to enter one, so that cycles are noticed and the work stays within its limits.
-/

namespace ArrayShapes

/-- How many keys may be in progress at once, and how many attempts may be made. -/
structure Limits where
  depth : Nat
  entries : Nat
deriving DecidableEq, Repr

namespace Limits

/-- Limits for finding the shapes of an expression; a key is a node. -/
def expression : Limits := ⟨500, 100000⟩

/-- Limits for expanding aliases; a key is the name of one. -/
def aliases : Limits := ⟨32, 10000⟩

end Limits

/-- What came of an attempt to enter a key. -/
inductive Outcome where
  | entered
  | cycle
  | tooDeep
  | tooMany
deriving DecidableEq, Repr

def Outcome.isExceeded : Outcome → Bool
  | .tooDeep | .tooMany => true
  | _ => false

structure Guard (κ : Type) where
  limits : Limits
  active : List κ
  entries : Nat
  limitHit : Bool

namespace Guard

variable {κ : Type} [DecidableEq κ]

def ofLimits (limits : Limits) : Guard κ := ⟨limits, [], 0, false⟩

/-- How many keys are in progress. -/
def depth (g : Guard κ) : Nat := g.active.length

/-- The count of attempts stays at this number. -/
def maxEntries : Nat := UInt32.size - 1

/-- What an attempt comes to when it is the last of `entries`. -/
def judge (g : Guard κ) (entries : Nat) (key : κ) : Outcome :=
  if entries > g.limits.entries then .tooMany
  else if g.depth ≥ g.limits.depth then .tooDeep
  else if key ∈ g.active then .cycle
  else .entered

/-- Attempts to enter a key. Every attempt counts, also one that fails. -/
def enter (g : Guard κ) (key : κ) : Outcome × Guard κ :=
  let entries := min (g.entries + 1) maxEntries
  let outcome := g.judge entries key
  (outcome,
    { g with
      entries
      active := if outcome = .entered then key :: g.active else g.active
      limitHit := g.limitHit || outcome.isExceeded })

/-- Leaves a key that was entered. -/
def leave (g : Guard κ) (key : κ) : Guard κ := { g with active := g.active.erase key }

end Guard

end ArrayShapes
