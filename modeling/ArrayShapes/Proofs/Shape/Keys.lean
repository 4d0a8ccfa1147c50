import Mathlib
import ArrayShapes.Shape.Key

/-!
Arrays and their keys. What stands under a string in an array literal is read back by that string,
and what stands under an integer is read back by the integer if the literal is a tuple. Every key that
is proposed leads to the value it is proposed with.
-/

namespace ArrayShapes.Shape

variable {s k v : Shape} {es pairs : List (Shape × Shape)}

def isUnion : Shape → Bool
  | .union _ => true
  | _ => false

/-- Whether a shape is one string or one integer. -/
def isLiteral : Shape → Bool
  | .str _ | .int _ => true
  | _ => false

theorem isUnion_of_isLiteral (h : s.isLiteral = true) : s.isUnion = false := by
  cases s with
  | union => cases h
  | _ => rfl

theorem alternatives_eq_singleton (h : s.isUnion = false) : s.alternatives = [s] := by
  cases s with
  | union => cases h
  | _ => rfl

theorem str?_eq_some_iff {content : String} : s.str? = some content ↔ s = .str content := by
  cases s <;> simp [str?]

/-! ### Indices -/

/-- Whether entries have the keys `0`, `1`, … in order, and there are any. -/
def Indexed (es : List (Shape × Shape)) : Prop :=
  es ≠ [] ∧ es.map Prod.fst = (List.range es.length).map fun i => .str (toString i)

theorem areIndices_iff (start : Nat) (keys : List Shape) :
    areIndices start keys ↔
      keys = (List.range' start keys.length).map fun i => .str (toString i) := by
  induction keys generalizing start with
  | nil => simp [areIndices]
  | cons key keys ih =>
      rw [areIndices, Bool.and_eq_true, beq_iff_eq, ih, str?_eq_some_iff, List.length_cons,
        List.range'_succ, List.map_cons, List.cons.injEq]

theorem indexed_iff (es : List (Shape × Shape)) :
    Indexed es ↔ (!es.isEmpty && areIndices 0 (es.map Prod.fst)) = true := by
  simp [Indexed, areIndices_iff, List.range_eq_range']

theorem Indexed.ofEntries_eq (hes : Indexed es) (unparsed : Option String) :
    ofEntries es unparsed = .tuple (es.map Prod.snd) := by
  rw [ofEntries, if_pos ((indexed_iff es).1 hes)]

theorem ofEntries_of_not_indexed (hes : ¬ Indexed es) (unparsed : Option String) :
    ofEntries es unparsed = .record es unparsed := by
  rw [ofEntries, if_neg (mt (indexed_iff es).2 hes)]

theorem Indexed.fst_getElem (hes : Indexed es) {i : Nat} (hi : i < es.length) :
    es[i].1 = .str (toString i) := by
  have hkey := congrArg (·[i]?) hes.2
  simpa [hi] using hkey

/-! ### What stands under a key -/

theorem mem_get_iff : v ∈ s.get k ↔ ∃ a ∈ s.alternatives, ∃ b ∈ k.alternatives, v ∈ a.lookup b := by
  simp [get]

theorem get_eq_lookup (hs : s.isUnion = false) (hk : k.isUnion = false) :
    s.get k = s.lookup k := by
  simp [get, alternatives_eq_singleton hs, alternatives_eq_singleton hk]

theorem mem_lookup_record {content : String} {unparsed : Option String} :
    v ∈ (record es unparsed).lookup (.str content) ↔ (.str content, v) ∈ es := by
  simp [lookup, str?_eq_some_iff]

theorem lookup_tuple_int (elements : List Shape) (n : Nat) :
    (tuple elements).lookup (.int n) = elements[n]?.toList := rfl

theorem agrees_self (k : Shape) : k.agrees k = true := by
  cases k <;> simp [agrees]

theorem agrees_eq_false {k' : Shape} (hk : k.isLiteral = true) (hk' : k'.isLiteral = true)
    (hne : k ≠ k') : k.agrees k' = false := by
  cases k <;> cases hk <;> cases k' <;> cases hk' <;> simp_all [agrees]

theorem get_map {k' : Shape} (hk : k.isUnion = false) (hk' : k'.isUnion = false) (v : Shape) :
    (map k v).get k' = if k.agrees k' then [v] else [] := by
  rw [get_eq_lookup rfl hk', lookup, matchesSome, alternatives_eq_singleton hk,
    alternatives_eq_singleton hk']
  simp

/-! ### Array literals -/

/-- The entries of an array literal with these keys and values. -/
def entriesOf (pairs : List (Shape × Shape)) : List (Shape × Shape) :=
  pairs.map fun p => (p.1.recordKey, p.2)

theorem mem_entriesOf {key : Shape} (h : (key, v) ∈ pairs) : (key.recordKey, v) ∈ entriesOf pairs :=
  List.mem_map_of_mem (f := fun p : Shape × Shape => (p.1.recordKey, p.2)) h

/-- In a tuple an integer is the place of its value. -/
theorem Indexed.getElem?_of_mem (hes : Indexed (entriesOf pairs)) {i : Int}
    (h : (.int i, v) ∈ pairs) : ∃ n : Nat, i = n ∧ ((entriesOf pairs).map Prod.snd)[n]? = some v := by
  obtain ⟨n, hn, hentry⟩ := List.mem_iff_getElem.1 (mem_entriesOf h)
  have hkey := hes.fst_getElem hn
  rw [hentry, recordKey, str.injEq] at hkey
  -- no single module of Mathlib brings `Int.repr_injective` along, so all of it is imported here
  refine ⟨n, Int.repr_injective hkey, ?_⟩
  rw [List.getElem?_map, List.getElem?_eq_getElem hn, hentry]
  rfl

theorem mem_get_str {content : String} (h : (.str content, v) ∈ pairs) :
    v ∈ (ofEntries (entriesOf pairs) none).get (.str content) := by
  have hentry := mem_entriesOf h
  by_cases hes : Indexed (entriesOf pairs)
  · rw [hes.ofEntries_eq, get_eq_lookup rfl rfl]
    exact List.mem_map_of_mem (f := Prod.snd) hentry
  · rw [ofEntries_of_not_indexed hes, get_eq_lookup rfl rfl]
    exact mem_lookup_record.2 hentry

/-- An array literal is read back by its own keys: by a string always, and by an integer if the
literal is a tuple. A record has nothing under an integer. -/
theorem get_literal (pairs : List (Shape × Shape)) :
    (∀ content value, (.str content, value) ∈ pairs →
      value ∈ (ofEntries (entriesOf pairs) none).get (.str content)) ∧
    ∀ i value, (.int i, value) ∈ pairs →
      (Indexed (entriesOf pairs) → (ofEntries (entriesOf pairs) none).get (.int i) = [value]) ∧
      (¬ Indexed (entriesOf pairs) → (ofEntries (entriesOf pairs) none).get (.int i) = []) := by
  refine ⟨fun content value h => mem_get_str h, fun i value h => ⟨fun hes => ?_, fun hes => ?_⟩⟩
  · obtain ⟨n, rfl, hvalue⟩ := hes.getElem?_of_mem h
    rw [hes.ofEntries_eq, get_eq_lookup rfl rfl, lookup_tuple_int, hvalue, Option.toList_some]
  · rw [ofEntries_of_not_indexed hes, get_eq_lookup rfl rfl]
    rfl

/-- A tuple with keys of both kinds, and a record with a negative key. -/
theorem get_literal_mixed :
    (ofEntries (entriesOf [(.int 0, .str "a"), (.str "1", .any)]) none).get (.int 0) = [.str "a"] ∧
    .any ∈ (ofEntries (entriesOf [(.int 0, .str "a"), (.str "1", .any)]) none).get (.str "1") ∧
    (ofEntries (entriesOf [(.int (-1), .any), (.str "x", .any)]) none).get (.int (-1)) = [] := by
  have htuple : Indexed (entriesOf [(.int 0, .str "a"), (.str "1", .any)]) := ⟨by simp [entriesOf], rfl⟩
  have hrecord : ¬ Indexed (entriesOf [(.int (-1), .any), (.str "x", .any)]) := by
    rw [indexed_iff]
    decide
  exact ⟨((get_literal _).2 0 (.str "a") (by simp)).1 htuple,
    (get_literal _).1 "1" .any (by simp), ((get_literal _).2 (-1) .any (by simp)).2 hrecord⟩

/-- A record is not read back by its integers, though all its keys are literals. -/
theorem not_forall_mem_get :
    ¬ ∀ pairs : List (Shape × Shape), (∀ p ∈ pairs, p.1.isLiteral = true) →
      ∀ p ∈ pairs, p.2 ∈ (ofEntries (entriesOf pairs) none).get p.1 := by
  intro h
  have hmem := h [(.int 5, .str "a")] (by simp [isLiteral]) (.int 5, .str "a") (by simp)
  have hget : (ofEntries (entriesOf [(.int 5, .str "a")]) none).get (.int 5) = [] := rfl
  rw [hget] at hmem
  cases hmem

/-! ### Proposed keys -/

/-- The entries of a record whose keys are strings. -/
def stringEntries : Shape → List (String × Shape)
  | .record entries _ => entries.filterMap fun e => e.1.str?.map (·, e.2)
  | _ => []

theorem matchesSome_of_mem_alternatives {content : String} (h : .str content ∈ k.alternatives) :
    k.matchesSome (.str content) = true :=
  List.any_eq_true.2 ⟨_, h, by simp [alternatives, agrees]⟩

/-- A key that is proposed for a shape that is no union leads to the value it is proposed with. -/
theorem exists_mem_lookup {indices : Nat} {c : Candidate} (h : c ∈ candidatesOf indices s) :
    ∃ value ∈ s.lookup (.str c.label), value.render = c.detail := by
  cases s with
  | record entries unparsed =>
      obtain ⟨⟨key, value⟩, he, hc⟩ := List.mem_filterMap.1 h
      obtain ⟨label, hkey, rfl⟩ := Option.map_eq_some_iff.1 hc
      rw [str?_eq_some_iff] at hkey
      subst hkey
      exact ⟨value, mem_lookup_record.2 he, rfl⟩
  | list value =>
      obtain ⟨i, -, rfl⟩ := List.mem_map.1 h
      exact ⟨value, List.mem_singleton_self value, rfl⟩
  | map keys value =>
      obtain ⟨label, hlabel, rfl⟩ := List.mem_map.1 h
      obtain ⟨key, hkey, hstr⟩ := List.mem_filterMap.1 hlabel
      rw [str?_eq_some_iff] at hstr
      subst hstr
      refine ⟨value, ?_, rfl⟩
      rw [lookup, if_pos (matchesSome_of_mem_alternatives hkey)]
      exact List.mem_singleton_self value
  | any | str | int | tuple | named | union => cases h

theorem map_stringEntries_sublist (s : Shape) (indices : Nat) :
    (s.stringEntries.map fun e => (e.1, e.2.render)).Sublist
      ((candidatesOf indices s).map fun c => (c.label, c.detail)) := by
  cases s with
  | record entries unparsed =>
      simp [stringEntries, candidatesOf, List.map_filterMap, Option.map_map, Function.comp_def]
  | any | str | int | tuple | list | map | named | union => exact List.nil_sublist _

theorem map_toCandidate_rankedCandidates (s : Shape) (indices : Nat) :
    (s.rankedCandidates indices).map (·.toCandidate) = s.candidates indices := by
  rw [rankedCandidates, List.map_map]
  exact List.zipIdx_map_fst 0 _

/-- Every key that is proposed leads to the value it is proposed with, keys are numbered from zero in
the order in which they are proposed, and those of records are all proposed, in order. -/
theorem rankedCandidates_lead_to_values (shape : Shape) (indices : Nat) :
    (∀ c ∈ shape.rankedCandidates indices,
      ∃ value ∈ shape.get (.str c.label), value.render = c.detail) ∧
    (shape.rankedCandidates indices).map (·.rank) =
      List.range (shape.rankedCandidates indices).length ∧
    ((shape.alternatives.flatMap stringEntries).map fun e => (e.1, e.2.render)).Sublist
      ((shape.rankedCandidates indices).map fun c => (c.label, c.detail)) := by
  refine ⟨fun c hc => ?_, ?_, ?_⟩
  · have hmem : c.toCandidate ∈ shape.candidates indices := by
      rw [← map_toCandidate_rankedCandidates]
      exact List.mem_map_of_mem hc
    obtain ⟨a, ha, hc⟩ := List.mem_flatMap.1 hmem
    obtain ⟨value, hvalue, hrender⟩ := exists_mem_lookup hc
    exact ⟨value, mem_get_iff.2 ⟨a, ha, _, List.mem_singleton_self _, hvalue⟩, hrender⟩
  · rw [rankedCandidates, List.map_map, List.length_map, List.length_zipIdx, List.range_eq_range']
    exact List.zipIdx_map_snd 0 _
  · have hall : (shape.rankedCandidates indices).map (fun c => (c.label, c.detail)) =
        (shape.candidates indices).map fun c => (c.label, c.detail) := by
      rw [← map_toCandidate_rankedCandidates, List.map_map]
      rfl
    rw [hall, candidates, List.map_flatMap, List.map_flatMap]
    exact List.Sublist.flatMap_right _ fun a _ => map_stringEntries_sublist a indices

theorem rankedCandidates_lead_to_values_mixed :
    ⟨⟨"x", "mixed"⟩, 2⟩ ∈ (union [.record [(.str "a", .int 1), (.any, .any), (.str "a", .any)] none,
      .map (.union [.plain "int", .str "x"]) .any]).rankedCandidates 5 ∧
    ∃ value ∈ (union [.record [(.str "a", .int 1), (.any, .any), (.str "a", .any)] none,
      .map (.union [.plain "int", .str "x"]) .any]).get (.str "x"), value.render = "mixed" := by
  refine ⟨by decide, (rankedCandidates_lead_to_values _ 5).1 ⟨⟨"x", "mixed"⟩, 2⟩ (by decide)⟩

end ArrayShapes.Shape
