import Mathlib.Data.List.Basic
import ArrayShapes.Shape

/-!
The names without arguments in a shape, and shapes with other shapes in the place of such names.
-/

namespace ArrayShapes.Shape

/-! ### Names -/

mutual

/-- The names without arguments in a shape, in order and with repetitions. -/
def names : Shape → List String
  | .any | .str _ | .int _ => []
  | .record entries _ => namesEntries entries
  | .tuple elements => namesList elements
  | .list value => value.names
  | .map key value => key.names ++ value.names
  | .named name [] => [name]
  | .named _ (a :: as) => namesList (a :: as)
  | .union members => namesList members

def namesList : List Shape → List String
  | [] => []
  | s :: ss => s.names ++ namesList ss

def namesEntries : List (Shape × Shape) → List String
  | [] => []
  | (key, value) :: es => key.names ++ value.names ++ namesEntries es

end

mutual

/-- A shape with `f name` in the place of each name without arguments. -/
def replace (f : String → Shape) : Shape → Shape
  | .any => .any
  | .str content => .str content
  | .int value => .int value
  | .record entries unparsed => .record (replaceEntries f entries) unparsed
  | .tuple elements => .tuple (replaceList f elements)
  | .list value => .list (value.replace f)
  | .map key value => .map (key.replace f) (value.replace f)
  | .named name [] => f name
  | .named name (a :: as) => .named name (replaceList f (a :: as))
  | .union members => .union (replaceList f members)

def replaceList (f : String → Shape) : List Shape → List Shape
  | [] => []
  | s :: ss => s.replace f :: replaceList f ss

def replaceEntries (f : String → Shape) : List (Shape × Shape) → List (Shape × Shape)
  | [] => []
  | (key, value) :: es => (key.replace f, value.replace f) :: replaceEntries f es

end

@[simp]
theorem names_plain (name : String) : (plain name).names = [name] := rfl

@[simp]
theorem replace_plain (f : String → Shape) (name : String) : (plain name).replace f = f name := rfl

@[simp]
theorem alternatives_plain (name : String) : (plain name).alternatives = [plain name] := rfl

theorem namesList_eq (ss : List Shape) : namesList ss = ss.flatMap names := by
  induction ss with
  | nil => rfl
  | cons s ss ih => simp [namesList, ih]

theorem namesEntries_eq (es : List (Shape × Shape)) :
    namesEntries es = es.flatMap fun e => e.1.names ++ e.2.names := by
  induction es with
  | nil => rfl
  | cons e es ih => simp [namesEntries, ih]

theorem replaceList_eq (f : String → Shape) (ss : List Shape) :
    replaceList f ss = ss.map (replace f) := by
  induction ss with
  | nil => rfl
  | cons s ss ih => simp [replaceList, ih]

theorem replaceEntries_eq (f : String → Shape) (es : List (Shape × Shape)) :
    replaceEntries f es = es.map fun e => (e.1.replace f, e.2.replace f) := by
  induction es with
  | nil => rfl
  | cons e es ih => simp [replaceEntries, ih]

theorem alternativesList_eq (ss : List Shape) : alternativesList ss = ss.flatMap alternatives := by
  induction ss with
  | nil => rfl
  | cons s ss ih => simp [alternativesList, ih]

/-! ### Induction -/

section Induction

variable {P : Shape → Prop}

/-- Induction on a shape, with a name without arguments as a case of its own. -/
@[elab_as_elim]
theorem inductionOn (s : Shape) (any : P .any) (str : ∀ content, P (.str content))
    (int : ∀ value, P (.int value))
    (record : ∀ entries unparsed, (∀ e ∈ entries, P e.1 ∧ P e.2) → P (.record entries unparsed))
    (tuple : ∀ elements, (∀ s ∈ elements, P s) → P (.tuple elements))
    (list : ∀ value, P value → P (.list value))
    (map : ∀ key value, P key → P value → P (.map key value))
    (plain : ∀ name, P (.plain name))
    (named : ∀ name a as, (∀ s ∈ a :: as, P s) → P (.named name (a :: as)))
    (union : ∀ members, (∀ s ∈ members, P s) → P (.union members)) : P s :=
  @Shape.rec P (fun entries => ∀ e ∈ entries, P e.1 ∧ P e.2) (fun ss => ∀ s ∈ ss, P s)
    (fun e => P e.1 ∧ P e.2) any str int record tuple list map
    (fun name arguments h => match arguments with
      | [] => plain name
      | a :: as => named name a as h)
    union (by simp) (fun _ _ he hes => List.forall_mem_cons.2 ⟨he, hes⟩) (by simp)
    (fun _ _ hs hss => List.forall_mem_cons.2 ⟨hs, hss⟩) (fun _ _ hk hv => ⟨hk, hv⟩) s

end Induction

/-! ### Replacement -/

/-- What is put in the place of names brings its own names. -/
theorem names_replace (f : String → Shape) (s : Shape) :
    (s.replace f).names = s.names.flatMap fun name => (f name).names := by
  induction s using inductionOn with
  | any | str | int => rfl
  | record es _ ih =>
      simp only [replace, names, namesEntries_eq, replaceEntries_eq, List.flatMap_map,
        List.flatMap_assoc, List.flatMap_append]
      exact List.flatMap_congr fun e he => by rw [(ih e he).1, (ih e he).2]
  | list value ih => exact ih
  | map key value ihk ihv => simp [replace, names, ihk, ihv]
  | plain name => simp
  | tuple ss ih | union ss ih =>
      simp only [replace, names, namesList_eq, replaceList_eq, List.flatMap_map, List.flatMap_assoc]
      exact List.flatMap_congr ih
  | named name a as ih =>
      have heq : ((named name (a :: as)).replace f).names =
          namesList (replaceList f (a :: as)) := rfl
      rw [heq, names]
      simp only [namesList_eq, replaceList_eq, List.flatMap_map, List.flatMap_assoc]
      exact List.flatMap_congr ih

/-- Replacement tells apart what it puts in the place of the names. -/
theorem replace_eq_replace_iff {f g : String → Shape} {s : Shape} :
    s.replace f = s.replace g ↔ ∀ name ∈ s.names, f name = g name := by
  induction s using inductionOn with
  | any | str | int => simp [replace, names]
  | record es _ ih =>
      simp only [replace, names, namesEntries_eq, replaceEntries_eq, record.injEq, and_true,
        List.map_inj_left, Prod.mk.injEq, List.mem_flatMap]
      constructor
      · rintro h name ⟨e, he, hname⟩
        rcases List.mem_append.1 hname with hname | hname
        · exact (ih e he).1.1 (h e he).1 name hname
        · exact (ih e he).2.1 (h e he).2 name hname
      · intro h e he
        exact ⟨(ih e he).1.2 fun name hname => h name ⟨e, he, List.mem_append_left _ hname⟩,
          (ih e he).2.2 fun name hname => h name ⟨e, he, List.mem_append_right _ hname⟩⟩
  | list value ih => simpa [replace, names] using ih
  | map key value ihk ihv => simp [replace, names, ihk, ihv, or_imp, forall_and]
  | plain name => simp
  | tuple ss ih | union ss ih =>
      simp only [replace, names, namesList_eq, replaceList_eq, tuple.injEq, union.injEq,
        List.map_inj_left, List.mem_flatMap]
      exact ⟨fun h name ⟨s, hs, hname⟩ => (ih s hs).1 (h s hs) name hname,
        fun h s hs => (ih s hs).2 fun name hname => h name ⟨s, hs, hname⟩⟩
  | named name a as ih =>
      simp only [replace, names, namesList_eq, replaceList_eq, named.injEq, true_and,
        List.map_inj_left, List.mem_flatMap]
      exact ⟨fun h name ⟨s, hs, hname⟩ => (ih s hs).1 (h s hs) name hname,
        fun h s hs => (ih s hs).2 fun name hname => h name ⟨s, hs, hname⟩⟩

/-- Nothing changes when each name is replaced by itself. -/
theorem replace_self (s : Shape) : s.replace plain = s := by
  induction s using inductionOn with
  | any | str | int => rfl
  | record es _ ih =>
      simp only [replace, replaceEntries_eq, record.injEq, and_true]
      have hself (e) (he : e ∈ es) : (e.1.replace plain, e.2.replace plain) = e :=
        Prod.ext (ih e he).1 (ih e he).2
      exact (List.map_congr_left hself).trans (List.map_id' es)
  | list value ih => simp [replace, ih]
  | map key value ihk ihv => simp [replace, ihk, ihv]
  | plain name => rfl
  | tuple ss ih | union ss ih =>
      simp only [replace, replaceList_eq, List.map_congr_left ih, List.map_id']
  | named _ a as ih => simp only [replace, replaceList_eq, List.map_congr_left ih, List.map_id']

theorem names_alternatives (s : Shape) : s.names = s.alternatives.flatMap names := by
  induction s using inductionOn with
  | union ss ih =>
      simp only [names, alternatives, namesList_eq, alternativesList_eq, List.flatMap_assoc]
      exact List.flatMap_congr ih
  | _ => simp [alternatives]

theorem names_sublist_of_mem_alternatives {s u : Shape} (h : u ∈ s.alternatives) :
    u.names.Sublist s.names := by
  rw [names_alternatives s, List.flatMap_def]
  exact List.sublist_flatten_of_mem (List.mem_map_of_mem h)

/-- The alternatives of a replacement are those that its alternatives have. -/
theorem alternatives_replace (f : String → Shape) (s : Shape) :
    (s.replace f).alternatives = s.alternatives.flatMap fun u => (u.replace f).alternatives := by
  induction s using inductionOn with
  | union ss ih =>
      simp only [replace, alternatives, replaceList_eq, alternativesList_eq, List.flatMap_map,
        List.flatMap_assoc]
      exact List.flatMap_congr ih
  | _ => simp [alternatives]

end ArrayShapes.Shape
