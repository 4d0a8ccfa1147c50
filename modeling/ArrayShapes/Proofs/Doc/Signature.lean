import ArrayShapes.Doc.Signature
import ArrayShapes.Proofs.Doc.Readback

/-!
A doc comment gives a parameter and a result the shape that is rendered in it.
-/

namespace ArrayShapes

open Text Doc

namespace Text

theorem after?_append (lead cs : List Char) : after? lead (lead ++ cs) = some cs := by
  induction lead with
  | nil => cases cs <;> rfl
  | cons l lead ih => simpa [after?] using ih

theorem lines_eq_singleton {cs : List Char} (hcs : '\n' ∉ cs) : lines cs = [cs] := by
  induction cs with
  | nil => rfl
  | cons c cs ih =>
      rw [List.mem_cons, not_or] at hcs
      have hc : (c == '\n') = false := by simpa using Ne.symm hcs.1
      simp [lines, hc, ih hcs.2]

end Text

namespace Doc

theorem before?_append (tail cs : List Char) : before? tail (cs ++ tail) = some cs := by
  simp [before?, after?_append]

/-- A doc comment of one line that begins with a tag. -/
theorem commentText?_tag {line : List Char} (hline : '\n' ∉ line) :
    commentText? (String.ofList ("/** @".toList ++ line ++ " */".toList)) =
      some (String.ofList ('@' :: line ++ [' '])) := by
  have hopen : after? "/*".toList ("/** @".toList ++ line ++ " */".toList) =
      some ("* @".toList ++ line ++ " */".toList) := after?_append "/*".toList _
  have hclose : before? "*/".toList (" @".toList ++ line ++ " */".toList) =
      some (" @".toList ++ line ++ [' ']) := by
    rw [← before?_append "*/".toList]
    simp
  have hstars : ("* @".toList ++ line ++ " */".toList).dropWhile (· == '*') =
      " @".toList ++ line ++ " */".toList := rfl
  have hwhite : dropWhite (" @".toList ++ line ++ [' ']) = '@' :: line ++ [' '] := rfl
  have hlines : lines ('@' :: line ++ [' ']) = ['@' :: line ++ [' ']] :=
    lines_eq_singleton (by simp [hline])
  have hgutter : stripGutter ('@' :: line ++ [' ']) = '@' :: line ++ [' '] := rfl
  simp only [commentText?, String.toList_ofList, hopen, Option.bind_eq_bind, Option.bind_some,
    hstars, hclose, hwhite, hlines, List.map_cons, List.map_nil, hgutter, joinLines,
    List.intercalate_singleton, Option.pure_def]

theorem tagLine?_eq {name text : List Char} (hne : name ≠ []) (hname : ∀ c ∈ name, isTagChar c)
    (htext : Expression.Opens text) :
    tagLine? ('@' :: (name ++ ' ' :: text)) = some ⟨String.ofList name, String.ofList text⟩ := by
  have hblank : ¬ isTagChar ' ' := by
    simp [isTagChar, isWord, isAscii, isAsciiAlphanumeric, isAsciiLetter, isAsciiDigit]
  have htake : (name ++ ' ' :: text).takeWhile isTagChar = name := by
    rw [List.takeWhile_append_of_pos hname, List.takeWhile_cons_of_neg hblank, List.append_nil]
  have hdrop : (name ++ ' ' :: text).dropWhile isTagChar = ' ' :: text := by
    rw [List.dropWhile_append_of_pos hname, List.dropWhile_cons_of_neg hblank]
  simp [tagLine?, dropWhite_cons (c := '@') rfl, htake, hdrop, hne, dropWhite_space,
    htext.dropWhite_eq]

/-- The one tag of a doc comment of one line. -/
theorem commentTags_line {name text : String} (hne : name ≠ "")
    (hname : ∀ c ∈ name.toList, isTagChar c) (htext : Expression.Opens text.toList)
    (hline : '\n' ∉ text.toList) :
    commentTags ("/** @" ++ name ++ " " ++ text ++ " */") = [⟨name, text ++ " "⟩] := by
  have hraw : "/** @" ++ name ++ " " ++ text ++ " */" =
      String.ofList ("/** @".toList ++ (name.toList ++ ' ' :: text.toList) ++ " */".toList) := by
    rw [← String.toList_inj]
    simp
  have hnewline : ¬ isTagChar '\n' := by
    simp [isTagChar, isWord, isAscii, isAsciiAlphanumeric, isAsciiLetter, isAsciiDigit]
  have hline : '\n' ∉ name.toList ++ ' ' :: text.toList := by
    simpa [hline] using fun h => hnewline (hname _ h)
  have hlines : lines ('@' :: (name.toList ++ ' ' :: text.toList) ++ [' ']) =
      ['@' :: (name.toList ++ ' ' :: (text.toList ++ [' ']))] := by
    rw [lines_eq_singleton (by simpa using hline)]
    simp
  rw [hraw, commentTags, commentText?_tag hline]
  simp only [Option.map_some, Option.getD_some, tags, String.toList_ofList, hlines, gatherTags,
    tagLine?_eq (by simpa using hne) hname (htext.append [' '])]
  simp

namespace Signature

theorem variableName?_eq {name : String} (hne : name ≠ "")
    (hname : ∀ c ∈ name.toList, isAlphanumeric c || c == '_') :
    variableName? (String.ofList ('$' :: name.toList ++ [' '])) = some name := by
  have htake : (name.toList ++ [' ']).takeWhile (fun c => isAlphanumeric c || c == '_') =
      name.toList := by
    rw [List.takeWhile_append_of_pos hname, List.takeWhile_cons_of_neg (by decide), List.append_nil]
  have hempty : name.toList.isEmpty = false := by simpa using hne
  have hdollar : after? ['$'] ('$' :: (name.toList ++ [' '])) = some (name.toList ++ [' ']) :=
    after?_append ['$'] _
  simp only [variableName?, String.toList_ofList, List.cons_append, dropWhite_cons (c := '$') rfl]
  simp only [show after? ['&'] ('$' :: (name.toList ++ [' '])) = none from rfl,
    show after? "...".toList ('$' :: (name.toList ++ [' '])) = none from rfl, Option.getD_none,
    hdollar, Option.bind_eq_bind, Option.bind_some, htake, hempty]
  simp

theorem parameter_eq {name : String} (hname : ∀ c ∈ name.toList, isAlphanumeric c || c == '_')
    (s : Shape) (result : Option Shape) :
    (Signature.mk [(name, s)] result).parameter name = s.alternatives := by
  have hdollar : after? ['$'] name.toList = none := by
    cases hcs : name.toList with
    | nil => rfl
    | cons c cs =>
        have hc := hname c (by simp [hcs])
        have hne : '$' ≠ c := by
          rintro rfl
          exact absurd hc (by decide)
        simp [after?, hne]
  simp [parameter, parameter?, hdollar]

end Signature

theorem ends_blank : Expression.Ends [' '] := by
  have hdrop : dropWhite [' '] = [] := rfl
  constructor
  · simp [Expression.isNameChar, isAsciiAlphanumeric, isAsciiLetter, isAsciiDigit]
  · simp [hdrop]

theorem ends_variable (cs : List Char) : Expression.Ends (' ' :: '$' :: cs) :=
  Expression.follows_of_dropWhite (c := '$') rfl rfl (by simp)

/-- A parameter and a result have the shape that a doc comment renders for them. -/
theorem signature_reads_rendering {s : Shape} (hs : s.Renderable) (hline : '\n' ∉ s.render.toList)
    {name : String} (hne : name ≠ "")
    (hname : ∀ c ∈ name.toList, isAlphanumeric c || c == '_') :
    (Signature.ofComment ("/** @param " ++ s.render ++ " $" ++ name ++ " */")).parameter name =
        s.alternatives ∧
      (Signature.ofComment ("/** @return " ++ s.render ++ " */")).results = s.alternatives := by
  have hopens : Expression.Opens s.render.toList := by simpa [Shape.render] using hs.opens
  constructor
  · have hraw : "/** @param " ++ s.render ++ " $" ++ name ++ " */" =
        "/** @" ++ "param" ++ " " ++ (s.render ++ " $" ++ name) ++ " */" := by
      rw [← String.toList_inj]
      simp
    have htags : commentTags ("/** @" ++ "param" ++ " " ++ (s.render ++ " $" ++ name) ++ " */") =
        [⟨"param", s.render ++ " $" ++ name ++ " "⟩] := by
      apply commentTags_line (by decide) (List.all_eq_true.mp (by decide))
      · simpa using hopens.append _
      · have hnewline : '\n' ∉ name.toList := fun h => absurd (hname _ h) (by decide)
        simp [hline, hnewline]
    have hread : expression? (s.render ++ " $" ++ name ++ " ") =
        some (s, String.ofList ('$' :: name.toList ++ [' '])) := by
      have hends : Expression.Ends (" $" ++ name ++ " ").toList := by
        simpa using ends_variable (name.toList ++ [' '])
      have hassoc : s.render ++ " $" ++ name ++ " " = s.render ++ (" $" ++ name ++ " ") := by
        simp only [String.append_assoc]
      rw [hassoc, expression?_eq hs hends]
      simp [dropWhite_space, dropWhite_cons (c := '$') rfl]
    rw [hraw, Signature.ofComment, htags]
    simp only [List.foldl_cons, List.foldl_nil, Signature.addTag, Signature.parameterTags, hread,
      Signature.variableName?_eq hne hname]
    exact Signature.parameter_eq hname s none
  · have hraw : "/** @return " ++ s.render ++ " */" =
        "/** @" ++ "return" ++ " " ++ s.render ++ " */" := by
      rw [← String.toList_inj]
      simp
    have hread := expression?_eq hs (r := " ") ends_blank
    rw [hraw, Signature.ofComment,
      commentTags_line (by decide) (List.all_eq_true.mp (by decide)) hopens hline]
    simp [Signature.addTag, Signature.parameterTags, Signature.resultTags, hread, Signature.results]

theorem signature_reads_someRows :
    '\n' ∉ someRows.render.toList ∧
    (Signature.ofComment ("/** @param " ++ someRows.render ++ " $" ++ "rows" ++ " */")).parameter
      "rows" = someRows.alternatives ∧
    (Signature.ofComment ("/** @return " ++ someRows.render ++ " */")).results =
      someRows.alternatives := by
  have hline : '\n' ∉ someRows.render.toList := by decide +kernel
  exact ⟨hline, signature_reads_rendering renderable_someRows hline (by decide)
    (List.all_eq_true.mp (by decide))⟩

end Doc

end ArrayShapes
