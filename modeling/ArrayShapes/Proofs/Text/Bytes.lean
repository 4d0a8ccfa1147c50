import ArrayShapes.Text.Character
import ArrayShapes.Text.Slice

/-!
Lengths of texts in bytes, and the pieces of a text that is put together from others.
-/

namespace ArrayShapes.Text

@[simp]
theorem byteLength_nil : byteLength [] = 0 := rfl

theorem foldl_utf8Size (n : Nat) (cs : List Char) :
    cs.foldl (fun n c => n + c.utf8Size) n = n + byteLength cs := by
  induction cs generalizing n with
  | nil => rfl
  | cons c cs ih =>
      rw [byteLength, List.foldl_cons, List.foldl_cons, ih, ih]
      omega

@[simp]
theorem byteLength_cons (c : Char) (cs : List Char) :
    byteLength (c :: cs) = c.utf8Size + byteLength cs := by
  rw [byteLength, List.foldl_cons, foldl_utf8Size, Nat.zero_add]

@[simp]
theorem byteLength_append (cs ds : List Char) :
    byteLength (cs ++ ds) = byteLength cs + byteLength ds := by
  rw [byteLength, List.foldl_append, foldl_utf8Size]
  rfl

theorem byteLength_take_add_drop (n : Nat) (cs : List Char) :
    byteLength (cs.take n) + byteLength (cs.drop n) = byteLength cs := by
  rw [← byteLength_append, List.take_append_drop]

theorem length_le_byteLength (cs : List Char) : cs.length ≤ byteLength cs := by
  induction cs with
  | nil => simp
  | cons c cs ih =>
      have := c.utf8Size_pos
      simp only [List.length_cons, byteLength_cons]
      omega

@[simp]
theorem utf8ByteSize_ofList (cs : List Char) : (String.ofList cs).utf8ByteSize = byteLength cs := by
  induction cs with
  | nil => simp
  | cons c cs ih =>
      rw [← List.singleton_append, String.ofList_append, String.utf8ByteSize_append, ih]
      simp

theorem byteLength_toList (s : String) : byteLength s.toList = s.utf8ByteSize := by
  rw [← utf8ByteSize_ofList, String.ofList_toList]

/-- A text between two others is cut out of all three by its offsets. -/
theorem slice?_append (a b c : String) :
    slice? (a ++ b ++ c) a.utf8ByteSize (a.utf8ByteSize + b.utf8ByteSize) = some b := by
  have hstart : (String.Pos.Raw.mk a.utf8ByteSize).IsValid (a ++ b ++ c) :=
    String.Pos.Raw.isValid_iff_exists_append.2 ⟨a, b ++ c, String.append_assoc, rfl⟩
  have hstop : (String.Pos.Raw.mk (a.utf8ByteSize + b.utf8ByteSize)).IsValid (a ++ b ++ c) :=
    String.Pos.Raw.isValid_iff_exists_append.2
      ⟨a ++ b, c, rfl, String.Pos.Raw.ext (by simp)⟩
  rw [slice?, dif_pos ⟨hstart, hstop, Nat.le_add_right _ _⟩]
  congr 1
  apply String.toByteArray_inj.1
  rw [String.toByteArray_extract, String.toByteArray_append, String.toByteArray_append,
    ByteArray.append_assoc]
  calc (a.toByteArray ++ (b.toByteArray ++ c.toByteArray)).extract
        (a.toByteArray.size + 0) (a.toByteArray.size + b.toByteArray.size)
      = (b.toByteArray ++ c.toByteArray).extract 0 b.toByteArray.size :=
        ByteArray.extract_append_size_add
    _ = b.toByteArray := ByteArray.extract_append_eq_left rfl

theorem slice?_eq_some_iff {s x : String} {start stop : Nat} :
    slice? s start stop = some x ↔
      (String.Pos.Raw.mk start).IsValid s ∧ (String.Pos.Raw.mk stop).IsValid s ∧ start ≤ stop ∧
        x.toByteArray = s.toByteArray.extract start stop := by
  unfold slice?
  split
  · next hvalid =>
      rw [Option.some_inj, ← String.toByteArray_inj, String.toByteArray_extract]
      constructor
      · intro hx
        exact ⟨hvalid.1, hvalid.2.1, hvalid.2.2, hx.symm⟩
      · intro hx
        exact hx.2.2.2.symm
  · next hvalid =>
      constructor
      · intro hx
        cases hx
      · intro hx
        exact absurd ⟨hx.1, hx.2.1, hx.2.2.1⟩ hvalid

theorem slice?_self {s : String} {offset : Nat} (h : (String.Pos.Raw.mk offset).IsValid s) :
    slice? s offset offset = some "" := by
  rw [slice?_eq_some_iff]
  exact ⟨h, h, Nat.le_refl _, by simp⟩

theorem slice?_trans {s x y : String} {start mid stop : Nat} (h : slice? s start mid = some x)
    (h' : slice? s mid stop = some y) : slice? s start stop = some (x ++ y) := by
  rw [slice?_eq_some_iff] at h h' ⊢
  obtain ⟨hstart, -, hle, hx⟩ := h
  obtain ⟨-, hstop, hle', hy⟩ := h'
  refine ⟨hstart, hstop, Nat.le_trans hle hle', ?_⟩
  rw [String.toByteArray_append, hx, hy, ByteArray.extract_append_extract, Nat.min_eq_left hle,
    Nat.max_eq_right hle']

end ArrayShapes.Text
