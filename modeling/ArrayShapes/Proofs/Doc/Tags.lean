import ArrayShapes.Proofs.Doc.Signature

/-!
Tags and the lines that go on with them. Splitting a text into tags goes line by line, so the tags of
two texts put together are those of both, except that lines in front of the first tag of the second
text go to the last tag of the first.
-/

namespace ArrayShapes

open Text

namespace Text

theorem lines_ne_nil (cs : List Char) : lines cs ≠ [] := by
  cases cs with
  | nil => simp [lines]
  | cons c cs =>
      rw [lines]
      split
      · simp
      · split <;> simp

theorem lines_append (cs ds : List Char) : lines (cs ++ '\n' :: ds) = lines cs ++ lines ds := by
  induction cs with
  | nil => simp [lines]
  | cons c cs ih =>
      cases hlines : lines cs with
      | nil => exact absurd hlines (lines_ne_nil cs)
      | cons l ls =>
          by_cases hc : c = '\n'
          · simp [lines, hc, ih, hlines]
          · simp [lines, hc, ih, hlines]

/-- Every line behind a line feed: no character is lost. -/
theorem flatMap_lines (cs : List Char) : (lines cs).flatMap ('\n' :: ·) = '\n' :: cs := by
  induction cs with
  | nil => rfl
  | cons c cs ih =>
      cases hlines : lines cs with
      | nil => exact absurd hlines (lines_ne_nil cs)
      | cons l ls =>
          by_cases hc : c = '\n'
          · simp [lines, hc, ih]
          · simpa [lines, hc, hlines] using ih

end Text

namespace Doc

/-! ### Lines with a tag -/

/-- A line that a tag begins: behind blank text an at sign and the name of the tag, which goes as far as
it can, and behind further blank text what the tag says. -/
structure BeginsTag (line name text : List Char) : Prop where
  name_ne : name ≠ []
  name_chars : ∀ c ∈ name, isTagChar c = true
  text_head : ∀ c, text.head? = some c → isWhite c = false
  line_eq : ∃ front gap, line = front ++ '@' :: (name ++ (gap ++ text)) ∧
    (∀ c ∈ front, isWhite c = true) ∧ (∀ c ∈ gap, isWhite c = true) ∧
    ∀ c, (gap ++ text).head? = some c → isTagChar c = false

section

variable {p : Char → Bool} {cs ds : List Char}

theorem takeWhile_append_of_head (hcs : ∀ c ∈ cs, p c = true)
    (hds : ∀ c, ds.head? = some c → p c = false) : (cs ++ ds).takeWhile p = cs := by
  rw [List.takeWhile_append_of_pos hcs]
  cases ds with
  | nil => simp
  | cons d ds => simp [hds d rfl]

theorem dropWhile_append_of_head (hcs : ∀ c ∈ cs, p c = true)
    (hds : ∀ c, ds.head? = some c → p c = false) : (cs ++ ds).dropWhile p = ds := by
  rw [List.dropWhile_append_of_pos hcs]
  cases ds with
  | nil => simp
  | cons d ds => simp [hds d rfl]

theorem head_dropWhile (p : Char → Bool) (cs : List Char) (c : Char)
    (h : (cs.dropWhile p).head? = some c) : p c = false := by
  have hnot := List.head?_dropWhile_not p cs
  rw [h] at hnot
  simpa using hnot

end

variable {line : List Char} {tag : Tag}

theorem tagLine?_of_beginsTag {name text : List Char} (h : BeginsTag line name text) :
    tagLine? line = some ⟨String.ofList name, String.ofList text⟩ := by
  obtain ⟨hne, hname, htext, front, gap, rfl, hfront, hgap, hhead⟩ := h
  have hsign : dropWhite (front ++ '@' :: (name ++ (gap ++ text))) = '@' :: (name ++ (gap ++ text)) :=
    dropWhile_append_of_head hfront (by simp [isWhite])
  have hgap : dropWhite (gap ++ text) = text := dropWhile_append_of_head hgap htext
  simp [tagLine?, hsign, takeWhile_append_of_head hname hhead, dropWhile_append_of_head hname hhead,
    hgap, hne]

theorem beginsTag_of_tagLine? (h : tagLine? line = some tag) :
    BeginsTag line tag.name.toList tag.text.toList := by
  unfold tagLine? at h
  split at h
  · rename_i rest hrest
    dsimp only at h
    split at h
    · cases h
    · rename_i hname
      cases h
      rw [String.toList_ofList, String.toList_ofList]
      refine ⟨by simpa using hname, fun c hc => List.mem_takeWhile_imp hc, head_dropWhile _ _,
        line.takeWhile isWhite, (rest.dropWhile isTagChar).takeWhile isWhite, ?_, ?_, ?_, ?_⟩
      · rw [dropWhite, List.takeWhile_append_dropWhile, List.takeWhile_append_dropWhile, ← hrest,
          dropWhite, List.takeWhile_append_dropWhile]
      · exact fun c hc => List.mem_takeWhile_imp hc
      · exact fun c hc => List.mem_takeWhile_imp hc
      · rw [dropWhite, List.takeWhile_append_dropWhile]
        exact head_dropWhile _ _
  · cases h

def IsTagLine (line : List Char) : Prop := ∃ name text, BeginsTag line name text

theorem tagLine?_eq_none_iff : tagLine? line = none ↔ ¬IsTagLine line := by
  constructor
  · rintro hline ⟨name, text, h⟩
    rw [tagLine?_of_beginsTag h] at hline
    cases hline
  · intro h
    cases hline : tagLine? line with
    | none => rfl
    | some tag => exact absurd ⟨_, _, beginsTag_of_tagLine? hline⟩ h

/-! ### Gathering -/

def Tag.goOn (tag : Tag) (ls : List (List Char)) : Tag :=
  { tag with text := tag.text ++ String.ofList (ls.flatMap ('\n' :: ·)) }

theorem Tag.goOn_nil (tag : Tag) : tag.goOn [] = tag := by
  simp [goOn]

theorem Tag.goOn_append (tag : Tag) (ls ms : List (List Char)) :
    tag.goOn (ls ++ ms) = (tag.goOn ls).goOn ms := by
  simp [goOn, String.append_assoc]

theorem gatherTags_tag {ls : List (List Char)} (h : tagLine? line = some tag) :
    gatherTags (line :: ls) = ([], tag.goOn (gatherTags ls).1 :: (gatherTags ls).2) := by
  rw [gatherTags, h]
  rfl

theorem gatherTags_loose {ls : List (List Char)} (h : tagLine? line = none) :
    gatherTags (line :: ls) = (line :: (gatherTags ls).1, (gatherTags ls).2) := by
  rw [gatherTags, h]

/-- The loose lines of the second text go to the last tag of the first, if there is one. -/
theorem gatherTags_append (ls ms : List (List Char)) :
    gatherTags (ls ++ ms) =
      ((gatherTags ls).1 ++ if (gatherTags ls).2 = [] then (gatherTags ms).1 else [],
        (gatherTags ls).2.modifyLast (·.goOn (gatherTags ms).1) ++ (gatherTags ms).2) := by
  induction ls with
  | nil => simp [gatherTags, List.modifyLast, List.modifyLast.go]
  | cons line ls ih =>
      rw [List.cons_append]
      cases hline : tagLine? line with
      | none =>
          rw [gatherTags_loose hline, gatherTags_loose hline, ih]
          rfl
      | some tag =>
          rw [gatherTags_tag hline, gatherTags_tag hline, ih]
          cases htags : (gatherTags ls).2 with
          | nil => simp [List.modifyLast, List.modifyLast.go, Tag.goOn_append]
          | cons t ts =>
              have hlast := List.modifyLast_append_of_right_ne_nil (·.goOn (gatherTags ms).1)
                [tag.goOn (gatherTags ls).1] (t :: ts) (by simp)
              rw [List.singleton_append] at hlast
              simp [hlast]

theorem gatherTags_of_loose {ls : List (List Char)} (h : ∀ line ∈ ls, tagLine? line = none) :
    gatherTags ls = (ls, []) := by
  induction ls with
  | nil => rfl
  | cons line ls ih =>
      rw [List.forall_mem_cons] at h
      rw [gatherTags_loose h.1, ih h.2]

/-! ### Texts -/

theorem tags_append_eq (a b : String) :
    tags (a ++ "\n" ++ b) =
      (tags a).modifyLast (·.goOn (gatherTags (lines b.toList)).1) ++ tags b := by
  have htext : (a ++ "\n" ++ b).toList = a.toList ++ '\n' :: b.toList := by simp
  rw [tags, htext, lines_append, gatherTags_append]
  rfl

theorem modifyLast_goOn_nil (ts : List Tag) : ts.modifyLast (·.goOn []) = ts := by
  induction ts using List.reverseRecOn with
  | nil => rfl
  | append_singleton ts tag => rw [List.modifyLast_concat, Tag.goOn_nil]

/-- Where a tag begins the second text, the tags of both texts come one after the other; where none
begins any of its lines, all of it goes to the last tag of the first text. With what a single line has
this says what the tags of every text are. -/
theorem tags_append (a b : String) :
    (∀ line, (lines b.toList).head? = some line → IsTagLine line →
      tags (a ++ "\n" ++ b) = tags a ++ tags b) ∧
    ((∀ line ∈ lines b.toList, ¬IsTagLine line) → tags b = [] ∧
      tags (a ++ "\n" ++ b) =
        (tags a).modifyLast fun tag => { tag with text := tag.text ++ ("\n" ++ b) }) ∧
    ∀ name text, '\n' ∉ b.toList → BeginsTag b.toList name text →
      tags b = [⟨String.ofList name, String.ofList text⟩] := by
  refine ⟨fun line hhead hline => ?_, fun hloose => ?_, fun name text hfeed hline => ?_⟩
  · obtain ⟨name, text, hline⟩ := hline
    obtain ⟨ls, hls⟩ := List.head?_eq_some_iff.1 hhead
    have hfirst : (gatherTags (lines b.toList)).1 = [] := by
      rw [hls, gatherTags_tag (tagLine?_of_beginsTag hline)]
    rw [tags_append_eq, hfirst, modifyLast_goOn_nil]
  · have hb : gatherTags (lines b.toList) = (lines b.toList, []) :=
      gatherTags_of_loose fun line hline => tagLine?_eq_none_iff.2 (hloose line hline)
    have hgoOn (tag : Tag) :
        tag.goOn (lines b.toList) = { tag with text := tag.text ++ ("\n" ++ b) } := by
      have htext : String.ofList ('\n' :: b.toList) = "\n" ++ b := by
        apply String.toList_inj.1
        simp
      rw [Tag.goOn, flatMap_lines, htext]
    have htags : tags b = [] := by rw [tags, hb]
    refine ⟨htags, ?_⟩
    rw [tags_append_eq, hb, htags, List.append_nil]
    simp only [hgoOn]
  · rw [tags, lines_eq_singleton hfeed, gatherTags_tag (tagLine?_of_beginsTag hline)]
    simp [gatherTags, Tag.goOn]

end Doc

end ArrayShapes
