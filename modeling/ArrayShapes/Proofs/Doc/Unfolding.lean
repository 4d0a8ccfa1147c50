import Mathlib.Algebra.GroupWithZero.Nat
import Mathlib.Algebra.Order.BigOperators.Group.List
import Mathlib.Algebra.Order.Group.Nat
import Mathlib.Data.List.MinMax
import Mathlib.Logic.Relation
import Mathlib.Order.Nat
import ArrayShapes.Proofs.Shape.Names

/-!
Aliases followed without limits. Each name without arguments is replaced by what its alias stands
for, with the names in it replaced in turn; a name that is being expanded already is kept. This may
go on for ever, so it is told by rules: what never comes to an end has no expansion.
-/

namespace ArrayShapes.Doc

/-! ### Expansions -/

/-- What a shape is expanded to, and what that takes. -/
@[ext]
structure Expansion where
  shape : Shape
  /-- The most aliases that are being expanded at once. -/
  nesting : Nat
  /-- How often a name is met that is an alias, whether it is expanded or kept. -/
  attempts : Nat
deriving Inhabited

namespace Expansion

/-- The expansion of a shape from those of the names in it. -/
def of (s : Shape) (parts : String → Expansion) : Expansion where
  shape := s.replace fun name => (parts name).shape
  nesting := (s.names.map fun name => (parts name).nesting).foldr max 0
  attempts := (s.names.map fun name => (parts name).attempts).sum

/-- The same result, with no more attempts. -/
structure Refines (e e' : Expansion) : Prop where
  shape : e.shape = e'.shape
  nesting : e.nesting = e'.nesting
  attempts : e.attempts ≤ e'.attempts

variable {s : Shape} {parts parts' : String → Expansion}

@[simp]
theorem of_plain (name : String) (parts : String → Expansion) :
    of (.plain name) parts = parts name := by
  simp [of]

theorem attempts_of (s : Shape) (parts : String → Expansion) :
    (of s parts).attempts = (s.names.map fun name => (parts name).attempts).sum := rfl

theorem nesting_of_le_iff {most : Nat} :
    (of s parts).nesting ≤ most ↔ ∀ name ∈ s.names, (parts name).nesting ≤ most := by
  rw [of, ← bot_eq_zero]
  constructor
  · intro h name hname
    exact (List.le_max_of_le (List.mem_map_of_mem hname) le_rfl).trans h
  · intro h
    exact List.max_le_of_forall_le _ _ (by simpa using h)

theorem nesting_le_of_mem {name : String} (h : name ∈ s.names) :
    (parts name).nesting ≤ (of s parts).nesting :=
  nesting_of_le_iff.1 le_rfl name h

theorem attempts_le_of_mem {name : String} (h : name ∈ s.names) :
    (parts name).attempts ≤ (of s parts).attempts :=
  List.single_le_sum (by simp) _ (List.mem_map_of_mem h)

/-- A part of a shape takes no more than the whole. -/
theorem attempts_of_le_of_sublist {u : Shape} (h : u.names.Sublist s.names) :
    (of u parts).attempts ≤ (of s parts).attempts :=
  (h.map _).sum_le_sum fun _ _ => Nat.zero_le _

theorem of_congr (h : ∀ name ∈ s.names, parts name = parts' name) : of s parts = of s parts' := by
  have hshape : s.replace (fun name => (parts name).shape) =
      s.replace fun name => (parts' name).shape :=
    Shape.replace_eq_replace_iff.2 fun name hname => by rw [h name hname]
  have hnesting := List.map_congr_left fun name hname => congrArg nesting (h name hname)
  have hattempts := List.map_congr_left fun name hname => congrArg attempts (h name hname)
  rw [of, of, hshape, hnesting, hattempts]

theorem refines_of (h : ∀ name ∈ s.names, (parts name).Refines (parts' name)) :
    (of s parts).Refines (of s parts') where
  shape := Shape.replace_eq_replace_iff.2 fun name hname => (h name hname).shape
  nesting := by
    rw [of, of, List.map_congr_left fun name hname => (h name hname).nesting]
  attempts := List.sum_le_sum fun name hname => (h name hname).attempts

end Expansion

/-! ### Names -/

/-- What a name is expanded to while the names on a path are being expanded. -/
inductive Unfolds (lookup : String → Option Shape) :
    (path : List String) → (name : String) → Expansion → Prop where
  | unknown {path name} (unknown : lookup name = none) :
      Unfolds lookup path name ⟨.plain name, 0, 0⟩
  | kept {path name target} (known : lookup name = some target) (mem : name ∈ path) :
      Unfolds lookup path name ⟨.plain name, 0, 1⟩
  | expanded {path name target parts} (known : lookup name = some target) (new : name ∉ path)
      (inner : ∀ other ∈ target.names, Unfolds lookup (name :: path) other (parts other)) :
      Unfolds lookup path name
        ⟨(Expansion.of target parts).shape, (Expansion.of target parts).nesting + 1,
          (Expansion.of target parts).attempts + 1⟩

/-- What a shape is expanded to: each name in it is replaced by its expansion. -/
def Expands (lookup : String → Option Shape) (s : Shape) (e : Expansion) : Prop :=
  ∃ parts, (∀ name ∈ s.names, Unfolds lookup [] name (parts name)) ∧ e = .of s parts

/-- Whether a name is an alias for a shape with some other name in it. -/
def Refers (lookup : String → Option Shape) (name other : String) : Prop :=
  ∃ target, lookup name = some target ∧ other ∈ target.names

/-- No alias that a shape leads to refers to itself, directly or through others. -/
def Acyclic (lookup : String → Option Shape) (s : Shape) : Prop :=
  ∀ name ∈ s.names, ∀ other, Relation.ReflTransGen (Refers lookup) name other →
    ¬Relation.TransGen (Refers lookup) other other

/-- Aliases that lead from higher to lower ranks do not lead back. -/
theorem acyclic_of_rank {lookup : String → Option Shape} (rank : String → Nat)
    (h : ∀ name other, Refers lookup name other → rank other < rank name) (s : Shape) :
    Acyclic lookup s := by
  intro _ _ other _ hcycle
  have hlt (x) (hx : Relation.TransGen (Refers lookup) other x) : rank x < rank other := by
    induction hx with
    | single hx => exact h _ _ hx
    | tail _ hx ih => exact (h _ _ hx).trans ih
  exact absurd (hlt other hcycle) (lt_irrefl _)

section Unfolds

open Relation

variable {lookup lookup' : String → Option Shape} {path path' : List String} {name : String}
variable {e e₁ e₂ : Expansion}

/-- A name is expanded in one way only. -/
theorem Unfolds.det (h₁ : Unfolds lookup path name e₁) (h₂ : Unfolds lookup path name e₂) :
    e₁ = e₂ := by
  induction h₁ generalizing e₂ with
  | unknown unknown => cases h₂ <;> simp_all
  | kept known mem => cases h₂ <;> simp_all
  | @expanded path name target parts known new _ ih =>
      cases h₂ with
      | unknown unknown => simp [known] at unknown
      | kept _ mem => exact absurd mem new
      | @expanded _ _ target' parts' known' _ inner =>
          obtain rfl : target = target' := by simpa [known] using known'
          rw [Expansion.of_congr fun other hother => ih other hother (inner other hother)]

/-- An expansion depends on the aliases only that a name leads to, and on whether these are being
expanded. A name on the path may as well be no alias at all. -/
theorem Unfolds.transfer (h : Unfolds lookup path name e)
    (hagree : ∀ other, ReflTransGen (Refers lookup') name other →
      (lookup' other = lookup other ∧ (other ∈ path' ↔ other ∈ path)) ∨
        (lookup' other = none ∧ other ∈ path)) :
    ∃ e', Unfolds lookup' path' name e' ∧ e'.Refines e := by
  induction h generalizing path' with
  | @unknown path name unknown =>
      refine ⟨_, .unknown ?_, rfl, rfl, le_rfl⟩
      rcases hagree name .refl with ⟨hlookup, -⟩ | ⟨hlookup, -⟩
      · rw [hlookup, unknown]
      · exact hlookup
  | @kept path name target known mem =>
      rcases hagree name .refl with ⟨hlookup, hmem⟩ | ⟨hlookup, -⟩
      · exact ⟨_, .kept (hlookup.trans known) (hmem.2 mem), rfl, rfl, le_rfl⟩
      · exact ⟨_, .unknown hlookup, rfl, rfl, Nat.zero_le _⟩
  | @expanded path name target parts known new _ ih =>
      rcases hagree name .refl with ⟨hlookup, hmem⟩ | ⟨-, hmem⟩
      · have known' : lookup' name = some target := hlookup.trans known
        have hinner (other) (hother : other ∈ target.names) :
            ∃ e', Unfolds lookup' (name :: path') other e' ∧ e'.Refines (parts other) := by
          apply ih other hother
          intro x hx
          rcases hagree x (.head ⟨target, known', hother⟩ hx) with ⟨hx, hmem⟩ | ⟨hx, hmem⟩
          · exact .inl ⟨hx, by simp [hmem]⟩
          · exact .inr ⟨hx, List.mem_cons_of_mem _ hmem⟩
        choose! parts' hparts' hrefines using hinner
        have hof := Expansion.refines_of hrefines
        exact ⟨_, .expanded known' (mt hmem.1 new) hparts', hof.shape,
          congrArg (· + 1) hof.nesting, Nat.add_le_add_right hof.attempts 1⟩
      · exact absurd hmem new

/-- Where no alias leads back to itself, no alias is left. -/
theorem Unfolds.lookup_eq_none (h : Unfolds lookup path name e)
    (hpath : ∀ other ∈ path, TransGen (Refers lookup) other name)
    (hacyclic : ∀ other, ReflTransGen (Refers lookup) name other →
      ¬TransGen (Refers lookup) other other) :
    ∀ other ∈ e.shape.names, lookup other = none := by
  induction h with
  | unknown unknown => simpa using unknown
  | @kept path name target known mem => exact absurd (hpath name mem) (hacyclic name .refl)
  | @expanded path name target parts known new _ ih =>
      intro other hother
      obtain ⟨x, hx, hother⟩ := List.mem_flatMap.1 (Shape.names_replace _ target ▸ hother)
      have hrefers : Refers lookup name x := ⟨target, known, hx⟩
      refine ih x hx ?_ (fun y hy => hacyclic y (.head hrefers hy)) other hother
      intro y hy
      rcases List.mem_cons.1 hy with rfl | hy
      · exact .single hrefers
      · exact (hpath y hy).tail hrefers

end Unfolds

section Expands

variable {lookup : String → Option Shape} {s : Shape} {e e₁ e₂ : Expansion}

theorem Expands.det (h₁ : Expands lookup s e₁) (h₂ : Expands lookup s e₂) : e₁ = e₂ := by
  obtain ⟨parts₁, hparts₁, rfl⟩ := h₁
  obtain ⟨parts₂, hparts₂, rfl⟩ := h₂
  exact Expansion.of_congr fun name hname => (hparts₁ name hname).det (hparts₂ name hname)

theorem expands_plain_iff {name : String} :
    Expands lookup (.plain name) e ↔ Unfolds lookup [] name e := by
  constructor
  · rintro ⟨parts, hparts, rfl⟩
    simpa using hparts
  · intro h
    exact ⟨fun _ => e, by simpa using h, by simp⟩

theorem Expands.lookup_eq_none (h : Expands lookup s e) (hacyclic : Acyclic lookup s) :
    ∀ name ∈ e.shape.names, lookup name = none := by
  obtain ⟨parts, hparts, rfl⟩ := h
  intro name hname
  obtain ⟨x, hx, hname⟩ := List.mem_flatMap.1 (Shape.names_replace _ s ▸ hname)
  exact (hparts x hx).lookup_eq_none (by simp) (hacyclic x hx) name hname

/-- A shape without aliases is its own expansion. -/
theorem Expands.of_lookup_eq_none (h : ∀ name ∈ s.names, lookup name = none) :
    Expands lookup s ⟨s, 0, 0⟩ := by
  refine ⟨fun name => ⟨.plain name, 0, 0⟩, fun name hname => .unknown (h name hname), ?_⟩
  have hnesting : (Expansion.of s fun name => ⟨.plain name, 0, 0⟩).nesting = 0 :=
    Nat.le_zero.1 (Expansion.nesting_of_le_iff.2 fun _ _ => le_rfl)
  have hshape : (Expansion.of s fun name => ⟨.plain name, 0, 0⟩).shape = s := Shape.replace_self s
  have hattempts : (Expansion.of s fun name => ⟨.plain name, 0, 0⟩).attempts = 0 := by
    simp [Expansion.of]
  exact (Expansion.ext hshape hnesting hattempts).symm

end Expands

end ArrayShapes.Doc
