import Mathlib.Data.List.Sort
import Mathlib.Data.String.Basic
import ArrayShapes.Completion.Item

/-!
How proposals are listed: each label once, where it occurs first, with ranks that sort as texts the
way they sort as numbers.
-/

namespace ArrayShapes.Completion

/-! ### Ranks as texts -/

/-- Texts of one length that are in order stay so, whatever stands behind them. -/
theorem append_lt_append_of_lt {as bs : List Char} (h : as < bs) (hlength : as.length = bs.length)
    (cs ds : List Char) : as ++ cs < bs ++ ds := by
  induction as generalizing bs with
  | nil =>
      obtain rfl := List.length_eq_zero_iff.1 hlength.symm
      exact absurd h (List.lt_irrefl [])
  | cons a as ih =>
      cases bs with
      | nil => cases hlength
      | cons b bs =>
          rw [List.cons_append, List.cons_append, List.cons_lt_cons_iff]
          rcases List.cons_lt_cons_iff.1 h with hab | ⟨hab, hrest⟩
          · exact .inl hab
          · exact .inr ⟨hab, ih hrest (Nat.succ.inj hlength)⟩

theorem append_lt_append_left (as : List Char) {bs cs : List Char} (h : bs < cs) :
    as ++ bs < as ++ cs :=
  List.Lex.append_left _ h as

theorem digitChar_lt_digitChar {i j : Nat} (hij : i < j) (hj : j < 10) :
    [i.digitChar] < [j.digitChar] := by
  have hval : i.digitChar.toNat < j.digitChar.toNat := by
    rw [Nat.toNat_digitChar_of_lt_ten (by omega), Nat.toNat_digitChar_of_lt_ten hj]
    omega
  exact List.cons_lt_cons_iff.2 (.inl (UInt32.lt_iff_toNat_lt.2 hval))

/-- With one more place, a number is written as a tenth of it is, with its last digit behind. -/
theorem leftpad_toDigits_succ {width : Nat} (hwidth : 0 < width) (n : Nat) :
    (Nat.toDigits 10 n).leftpad (width + 1) '0' =
      (Nat.toDigits 10 (n / 10)).leftpad width '0' ++ [(n % 10).digitChar] := by
  rcases Nat.lt_or_ge n 10 with hn | hn
  · have hzeros : List.replicate (width - 1) '0' ++ ['0'] = List.replicate width '0' := by
      rw [← List.replicate_succ', Nat.sub_add_cancel hwidth]
    rw [Nat.toDigits_of_lt_base hn, Nat.div_eq_of_lt hn, Nat.mod_eq_of_lt hn]
    simp [List.leftpad, hzeros]
  · have hdigits := Nat.toDigits_append_toDigits (b := 10) (n := n / 10) (d := n % 10)
      (by decide) (by omega) (by omega)
    rw [Nat.div_add_mod, Nat.toDigits_of_lt_base (Nat.mod_lt n (by decide))] at hdigits
    simp [List.leftpad, ← hdigits]

theorem leftpad_toDigits_lt {width i j : Nat} (hwidth : 0 < width) (hij : i < j)
    (hj : j < 10 ^ width) :
    (Nat.toDigits 10 i).leftpad width '0' < (Nat.toDigits 10 j).leftpad width '0' := by
  induction width, hwidth using Nat.le_induction generalizing i j with
  | base =>
      rw [Nat.toDigits_of_lt_base (by omega), Nat.toDigits_of_lt_base (by omega)]
      exact digitChar_lt_digitChar hij (by omega)
  | succ width hwidth ih =>
      rw [Nat.pow_succ] at hj
      rw [leftpad_toDigits_succ hwidth, leftpad_toDigits_succ hwidth]
      rcases Nat.lt_or_ge (i / 10) (j / 10) with htens | htens
      · have hlength (n) (hn : n < 10 ^ width) :
            ((Nat.toDigits 10 n).leftpad width '0').length = width := by
          rw [List.length_leftpad, max_eq_left ((Nat.length_toDigits_le_iff (by decide) hwidth).2 hn)]
        exact append_lt_append_of_lt (ih htens (by omega))
          ((hlength _ (by omega)).trans (hlength _ (by omega)).symm) _ _
      · obtain htens : i / 10 = j / 10 := by omega
        rw [htens]
        exact append_lt_append_left _ (digitChar_lt_digitChar (by omega) (by omega))

theorem toList_sortText (rank : Nat) :
    (sortText rank).toList = (Nat.toDigits 10 rank).leftpad sortWidth '0' := by
  simp [sortText, List.leftpad, Nat.toString_eq_repr, Nat.toList_repr, ← String.length_toList]

/-- Ranks that fit into the places sort as texts the way they do as numbers. -/
theorem sortText_lt_sortText {i j : Nat} (hij : i < j) (hj : j < 10 ^ sortWidth) :
    sortText i < sortText j := by
  rw [String.lt_iff, toList_sortText, toList_sortText]
  exact leftpad_toDigits_lt (by decide) hij hj

/-! ### Ranked items -/

section Ranked

variable {items : List Item}

/-- Each item carries its position as its rank. -/
def IsRanked (items : List Item) : Prop :=
  ∀ i item, items[i]? = some item → item.sortText = sortText i

theorem map_ranked (kind : ItemKind) (labels : List (String × String)) :
    (ranked kind labels).map (fun item => (item.label, item.detail)) = labels := by
  rw [ranked, List.map_map]
  exact List.zipIdx_map_fst 0 labels

theorem isRanked_ranked (kind : ItemKind) (labels : List (String × String)) :
    IsRanked (ranked kind labels) := by
  intro i item h
  simp only [ranked, List.getElem?_map, List.getElem?_zipIdx] at h
  cases hi : labels[i]? with
  | none => simp [hi] at h
  | some label =>
      obtain rfl : _ = item := by simpa [hi] using h
      simp

theorem IsRanked.pairwise (h : IsRanked items) (hlength : items.length ≤ 10 ^ sortWidth) :
    items.Pairwise (·.sortText < ·.sortText) := by
  rw [List.pairwise_iff_getElem]
  intro i j hi hj hij
  rw [h i _ (List.getElem?_eq_getElem hi), h j _ (List.getElem?_eq_getElem hj)]
  exact sortText_lt_sortText hij (by omega)

/-- Ranked items come back into their order from any other by a sort on the texts of their ranks. -/
theorem IsRanked.mergeSort_eq (h : IsRanked items) (hlength : items.length ≤ 10 ^ sortWidth)
    {shuffled : List Item} (hperm : shuffled.Perm items) :
    shuffled.mergeSort (fun a b => a.sortText ≤ b.sortText) = items := by
  have hsorted := h.pairwise hlength
  have hnodup : (items.map (·.sortText)).Nodup := List.pairwise_map.2 (hsorted.imp ne_of_lt)
  have hsame := (List.mergeSort_perm shuffled (fun a b => a.sortText ≤ b.sortText)).trans hperm
  have hshuffled : (shuffled.mergeSort fun a b => a.sortText ≤ b.sortText).Pairwise fun a b =>
      decide (a.sortText ≤ b.sortText) = true :=
    List.pairwise_mergeSort (fun a b c => by simpa using le_trans)
      (fun a b => by simpa using le_total _ _) shuffled
  refine hsame.eq_of_pairwise ?_ hshuffled (hsorted.imp fun hlt => by simpa using le_of_lt hlt)
  intro a b ha hb hab hba
  have heq : a.sortText = b.sortText := le_antisymm (by simpa using hab) (by simpa using hba)
  exact List.inj_on_of_nodup_map hnodup (hsame.mem_iff.1 ha) hb heq

end Ranked

/-! ### First occurrences -/

section FirstOccurrences

variable {α : Type}

/-- The elements of a list whose label no element before them has. -/
def firstOccurrences (label : α → String) (xs : List α) : List α :=
  (xs.zipIdx.filter fun (x, i) => label x ∉ (xs.take i).map label).map Prod.fst

/-- What is left of a list without some labels is looked through as the whole list is, with these
labels taken for earlier ones. -/
theorem firstOfEach_filter (label : α → String) (seen : List String) (xs : List α) :
    firstOfEach label (xs.filter (label · ∉ seen)) =
      (xs.zipIdx.filter fun (x, i) => label x ∉ seen ++ (xs.take i).map label).map Prod.fst := by
  induction xs generalizing seen with
  | nil => simp [firstOfEach]
  | cons x xs ih =>
      have htail : ((xs.zipIdx.map (Prod.map id (· + 1))).filter fun (y, i) =>
          label y ∉ seen ++ ((x :: xs).take i).map label).map Prod.fst =
            firstOfEach label (xs.filter (label · ∉ seen ++ [label x])) := by
        rw [ih, List.filter_map, List.map_map]
        simp [Function.comp_def]
      rw [List.zipIdx_cons']
      by_cases hx : label x ∈ seen
      · have hsame : xs.filter (label · ∉ seen) = xs.filter (label · ∉ seen ++ [label x]) :=
          List.filter_congr fun y _ => by grind
        rw [List.filter_cons_of_neg (by simpa), List.filter_cons_of_neg (by simp [hx]), htail, hsame]
      · have hrest : (xs.filter (label · ∉ seen)).filter (label · != label x) =
            xs.filter (label · ∉ seen ++ [label x]) := by
          rw [List.filter_filter]
          exact List.filter_congr fun y _ => by grind
        rw [List.filter_cons_of_pos (by simpa), List.filter_cons_of_pos (by simpa), List.map_cons,
          htail, firstOfEach, hrest]

theorem firstOfEach_eq_firstOccurrences (label : α → String) (xs : List α) :
    firstOfEach label xs = firstOccurrences label xs := by
  simpa [firstOccurrences] using firstOfEach_filter label [] xs

theorem firstOfEach_map {β : Type} (label : β → String) (f : α → β) (xs : List α) :
    firstOfEach label (xs.map f) = (firstOfEach (label ∘ f) xs).map f := by
  simp only [firstOfEach_eq_firstOccurrences, firstOccurrences, List.zipIdx_map, List.filter_map,
    List.map_map, ← List.map_take]
  rfl

theorem mem_of_mem_firstOfEach {label : α → String} {x : α} {xs : List α}
    (h : x ∈ firstOfEach label xs) : x ∈ xs := by
  fun_induction firstOfEach label xs with
  | case1 => exact h
  | case2 y ys ih =>
      simp only [List.unattach_filter, List.unattach_attach] at ih
      rcases List.mem_cons.1 h with rfl | h
      · exact List.mem_cons_self
      · exact List.mem_cons_of_mem _ (List.mem_of_mem_filter (ih h))

theorem nodup_map_firstOfEach (label : α → String) (xs : List α) :
    ((firstOfEach label xs).map label).Nodup := by
  fun_induction firstOfEach label xs with
  | case1 => exact List.nodup_nil
  | case2 x xs ih =>
      simp only [List.unattach_filter, List.unattach_attach] at ih
      refine List.nodup_cons.2 ⟨fun hmem => ?_, ih⟩
      obtain ⟨y, hy, heq⟩ := List.mem_map.1 hmem
      have hne := List.of_mem_filter (mem_of_mem_firstOfEach hy)
      simp [heq] at hne

theorem firstOfEach_eq_self {label : α → String} {xs : List α} (h : (xs.map label).Nodup) :
    firstOfEach label xs = xs := by
  fun_induction firstOfEach label xs with
  | case1 => rfl
  | case2 x xs ih =>
      simp only [List.unattach_filter, List.unattach_attach] at ih
      obtain ⟨hx, hxs⟩ := List.nodup_cons.1 h
      have hall : xs.filter (label · != label x) = xs :=
        List.filter_eq_self.2 fun y hy => by
          have hne : label y ≠ label x := fun heq => hx (heq ▸ List.mem_map_of_mem hy)
          simpa using hne
      rw [hall] at ih ⊢
      rw [ih hxs]

end FirstOccurrences

end ArrayShapes.Completion
