import Mathlib.Data.Option.Basic
import ArrayShapes.Token.Scan

/-!
Every way of cutting a token off a text takes at least one character and no more than there are,
and what it finds wrong lies within what it takes. So the scan moves forward with every token and
never past the end of the text.
-/

namespace ArrayShapes.Scan

open Text

/-- At least one character is taken, no more than `cs` has, and the faults lie among those taken. -/
structure Cut.Fits (cut : Cut) (cs : List Char) : Prop where
  pos : 0 < cut.length
  le : cut.length ≤ cs.length
  faults : ∀ f ∈ cut.faults, f.start + f.length ≤ cut.length

theorem Cut.Fits.clean {kind : TokenKind} {length : Nat} {mode : Mode} {cs : List Char}
    (hpos : 0 < length) (hle : length ≤ cs.length) : Cut.Fits ⟨kind, length, [], mode⟩ cs :=
  ⟨hpos, hle, by simp⟩

theorem Cut.Fits.faulty {kind : TokenKind} {length : Nat} {problem : Problem} {cs : List Char}
    (hpos : 0 < length) (hle : length ≤ cs.length) :
    (Cut.faulty kind length problem).Fits cs :=
  ⟨hpos, hle, by simp [Cut.faulty]⟩

/-! ### Runs and searches -/

theorem run_le (p : Char → Bool) (cs : List Char) : run p cs ≤ cs.length :=
  (List.takeWhile_sublist p).length_le

theorem run_pos {p : Char → Bool} {c : Char} {cs : List Char} (h : p c = true) :
    0 < run p (c :: cs) := by
  simp [run, h]

theorem length_pos_of_starts {p : Char → Bool} {cs : List Char} (h : starts p cs = true) :
    0 < cs.length := by
  cases cs with
  | nil => simp [starts] at h
  | cons c cs => simp

theorem length_le_of_isPrefixOf {needle cs : List Char} (h : needle.isPrefixOf cs = true) :
    needle.length ≤ cs.length :=
  (List.isPrefixOf_iff_prefix.1 h).length_le

/-- What is searched for lies, where it is found, in front of the end of the text. -/
theorem before?_bounds {needle cs : List Char} {n m : Nat} (h : before? needle n cs = some m) :
    n ≤ m ∧ m + needle.length ≤ n + cs.length := by
  induction cs generalizing n with
  | nil => simp [before?] at h
  | cons c cs ih =>
      rw [before?] at h
      split at h
      · rename_i hp
        have hle := length_le_of_isPrefixOf hp
        simp only [Option.some.injEq] at h
        omega
      · have := ih h
        simp only [List.length_cons]
        omega

/-! ### Markup -/

theorem openTag_fits {cs : List Char} : (openTag cs).Fits ('<' :: '?' :: cs) := by
  unfold openTag
  split
  · rename_i h
    have hlen := congrArg String.length (eq_of_beq (Bool.and_eq_true_iff.1 h).1)
    simp only [lower, String.length_map, String.length_ofList, List.length_take] at hlen
    have hphp : "php".length = 3 := by decide
    exact .clean (by simp) (by simp; omega)
  · split
    · rename_i h
      have := length_pos_of_starts h
      exact .clean (by simp) (by simp; omega)
    · exact .clean (by simp) (by simp)

theorem markup_fits {cs : List Char} (h : cs ≠ []) : (markup cs).Fits cs := by
  unfold markup
  split
  · exact openTag_fits
  · rename_i hne
    have hlen := List.length_pos_iff.2 h
    cases hb : before? ['<', '?'] 0 cs with
    | none => exact .clean (by simpa) (by simp)
    | some m =>
        have hm := before?_bounds hb
        refine .clean ?_ (by simp at hm ⊢; omega)
        -- The text does not start with what is searched for, so the search goes past its start.
        cases cs with
        | nil => exact absurd rfl h
        | cons c rest =>
            rw [before?] at hb
            split at hb
            · rename_i hp
              obtain ⟨rest', hr⟩ := List.isPrefixOf_iff_prefix.1 hp
              exact absurd hr.symm (hne rest')
            · have := before?_bounds hb
              simp
              omega

/-! ### Comments -/

theorem lineCommentLength_bounds (n : Nat) (cs : List Char) :
    n ≤ lineCommentLength n cs ∧ lineCommentLength n cs ≤ n + cs.length := by
  induction cs generalizing n with
  | nil => simp [lineCommentLength]
  | cons c cs ih =>
      rw [lineCommentLength]
      split
      · simp
      · have := ih (n + 1)
        simp only [List.length_cons]
        omega

/-- The characters a line comment opens with do not end it. -/
theorem lineComment_fits {c : Char} {cs : List Char}
    (h : (isLineEnd c || (c == '?' && starts (· == '>') cs)) = false) :
    Cut.Fits ⟨.comment, lineCommentLength 0 (c :: cs), [], .code⟩ (c :: cs) := by
  have hb := lineCommentLength_bounds 1 cs
  have heq : lineCommentLength 0 (c :: cs) = lineCommentLength 1 cs := by
    simp [lineCommentLength, h]
  exact .clean (by omega) (by simp only [List.length_cons]; omega)

theorem blockComment_fits {cs : List Char} (h : 2 ≤ cs.length) : (blockComment cs).Fits cs := by
  unfold blockComment
  dsimp only
  split
  · rename_i n hn
    have hb := before?_bounds hn
    simp only [List.length_cons, List.length_nil, List.length_drop] at hb
    exact .clean (by omega) (by omega)
  · exact .faulty (by omega) (Nat.le_refl _)

/-! ### Strings -/

theorem closedLength?_bounds {quote : Char} {n m : Nat} {cs : List Char}
    (h : closedLength? quote n cs = some m) : n < m ∧ m ≤ n + cs.length := by
  fun_induction closedLength? quote n cs with
  | case1 => simp at h
  | case2 => simp at h
  | case3 n c cs ih =>
      have := ih h
      simp only [List.length_cons]
      omega
  | case4 n c cs _ _ _ =>
      simp only [Option.some.injEq] at h
      simp only [List.length_cons]
      omega
  | case5 n c cs _ _ _ ih =>
      have := ih h
      simp only [List.length_cons]
      omega

theorem string_fits (quote : Char) {cs : List Char} (h : cs ≠ []) : (string quote cs).Fits cs := by
  have hlen := List.length_pos_iff.2 h
  unfold string
  split
  · rename_i n hn
    have hb := closedLength?_bounds hn
    rw [List.length_drop] at hb
    exact .clean (by omega) (by omega)
  · have := run_le (!isLineEnd ·) cs
    exact .faulty (by omega) (by omega)

/-- What is read of an attribute group ends behind the string being passed over, and the faults
found lie in front of that end. -/
theorem attributeFrom_bounds {n depth skip : Nat} {faults : List Fault} {cs : List Char}
    (hskip : skip ≤ cs.length) (hfaults : ∀ f ∈ faults, f.start + f.length ≤ n + skip) :
    n + skip ≤ (attributeFrom n depth skip faults cs).1 ∧
    (attributeFrom n depth skip faults cs).1 ≤ n + cs.length ∧
    ∀ f ∈ (attributeFrom n depth skip faults cs).2.2,
      f.start + f.length ≤ (attributeFrom n depth skip faults cs).1 := by
  fun_induction attributeFrom n depth skip faults cs with
  | case1 n depth skip faults =>
      simp only [List.length_nil, Nat.le_zero_eq] at hskip
      subst hskip
      exact ⟨Nat.le_refl _, Nat.le_refl _, hfaults⟩
  | case2 n depth skip faults c cs hs ih =>
      simp only [List.length_cons] at hskip ⊢
      have := ih (by omega) (fun f hf => by have := hfaults f hf; omega)
      exact ⟨by omega, by omega, this.2.2⟩
  | case3 n depth skip faults c cs hs hq cut moved ih =>
      have hcut : cut.Fits (c :: cs) := string_fits c (by simp)
      have hpos := hcut.pos
      have hle := hcut.le
      simp only [List.length_cons] at hle ⊢
      have hmoved : ∀ f ∈ faults ++ moved, f.start + f.length ≤ n + 1 + (cut.length - 1) := by
        intro f hf
        rcases List.mem_append.1 hf with hf | hf
        · have := hfaults f hf
          omega
        · obtain ⟨g, hg, rfl⟩ := List.mem_map.1 hf
          have := hcut.faults g hg
          dsimp only
          omega
      have := ih (by omega) hmoved
      exact ⟨by omega, by omega, this.2.2⟩
  | case4 n depth skip faults c cs hs _ _ ih =>
      have := ih (Nat.zero_le _) (fun f hf => by have := hfaults f hf; omega)
      simp only [List.length_cons]
      exact ⟨by omega, by omega, this.2.2⟩
  | case5 n depth skip faults c cs hs _ _ _ _ =>
      simp only [List.length_cons]
      exact ⟨by omega, by omega, fun f hf => by have := hfaults f hf; omega⟩
  | case6 n depth skip faults c cs hs _ _ _ _ ih =>
      have := ih (Nat.zero_le _) (fun f hf => by have := hfaults f hf; omega)
      simp only [List.length_cons]
      exact ⟨by omega, by omega, this.2.2⟩
  | case7 n depth skip faults c cs hs _ _ _ ih =>
      have := ih (Nat.zero_le _) (fun f hf => by have := hfaults f hf; omega)
      simp only [List.length_cons]
      exact ⟨by omega, by omega, this.2.2⟩

theorem attributeGroup_fits {cs : List Char} (h : 2 ≤ cs.length) : (attributeGroup cs).Fits cs := by
  have hb := @attributeFrom_bounds 2 1 0 [] (cs.drop 2) (Nat.zero_le _) (by simp)
  rw [List.length_drop] at hb
  unfold attributeGroup
  split
  · rename_i heq
    rw [heq] at hb
    exact ⟨by dsimp only at hb ⊢; omega, by dsimp only at hb ⊢; omega, hb.2.2⟩
  · rename_i length faults heq
    rw [heq] at hb
    refine ⟨by dsimp only at hb ⊢; omega, by dsimp only at hb ⊢; omega, ?_⟩
    intro f hf
    rcases List.mem_append.1 hf with hf | hf
    · exact hb.2.2 f hf
    · simp only [List.mem_singleton] at hf
      subst hf
      simp

theorem length_of_after? {lead cs rest : List Char} (h : after? lead cs = some rest) :
    cs.length = lead.length + rest.length := by
  induction lead generalizing cs with
  | nil => simp_all [after?]
  | cons l ls ih =>
      cases cs with
      | nil => simp [after?] at h
      | cons c cs =>
          rw [after?] at h
          split at h
          · have := ih h
            simp only [List.length_cons]
            omega
          · simp at h

theorem heredocLength?_bounds {label : List Char} {n m : Nat} {cs : List Char}
    (h : heredocLength? label n cs = some m) : n < m ∧ m ≤ n + cs.length := by
  fun_induction heredocLength? label n cs with
  | case1 => simp at h
  | case2 n c cs _ gap rest hrest _ ih =>
      have := ih h
      simp only [List.length_cons]
      omega
  | case3 n c cs _ gap rest hrest _ =>
      have hlen := length_of_after? hrest
      have hgap : gap ≤ cs.length := run_le isGap cs
      simp only [Option.some.injEq] at h
      simp only [List.length_cons, List.length_drop] at hlen ⊢
      omega
  | case4 n c cs _ gap hrest ih =>
      have := ih h
      simp only [List.length_cons]
      omega
  | case5 n c cs _ ih =>
      have := ih h
      simp only [List.length_cons]
      omega

/-- The opening line of a heredoc ends inside the text, and what is read goes on from there. -/
theorem heredoc?_fits {cs : List Char} {cut : Cut} (h : heredoc? cs = some cut) : cut.Fits cs := by
  unfold heredoc? at h
  extract_lets gap opened quote skip named label closed body head at h
  simp only [Option.bind_eq_bind, Option.bind_eq_some_iff] at h
  obtain ⟨_, _, _, _, _, hline, h⟩ := h
  have hbody : 0 < body.length := length_pos_of_starts ((Option.guard_eq_some' _).1 hline)
  have hlen : body.length = cs.length - (3 + gap) - skip - label.length - skip := by
    simp only [body, closed, named, opened, List.length_drop]
  have hhead : head = 3 + gap + skip + label.length + skip := rfl
  simp only [Option.pure_def, Option.some.injEq] at h
  subst h
  split
  · rename_i n hn
    have := heredocLength?_bounds hn
    exact .clean (by omega) (by omega)
  · exact .faulty (by omega) (Nat.le_refl _)

/-! ### Names and numbers -/

theorem nameLength_bounds (n : Nat) (cs : List Char) :
    n ≤ nameLength n cs ∧ nameLength n cs ≤ n + cs.length := by
  induction cs generalizing n with
  | nil => simp [nameLength]
  | cons c cs ih =>
      have := ih (n + 1)
      rw [nameLength]
      simp only [List.length_cons]
      split
      · omega
      · split <;> omega

theorem fractionLength_le (cs : List Char) : fractionLength cs ≤ cs.length := by
  unfold fractionLength
  split
  · rename_i h
    have hpos := length_pos_of_starts (Bool.and_eq_true_iff.1 h).1
    have hrun := run_le isDigitOrSeparator (cs.drop 1)
    rw [List.length_drop] at hrun
    omega
  · exact Nat.zero_le _

theorem exponentLength_le (cs : List Char) : exponentLength cs ≤ cs.length := by
  unfold exponentLength
  split
  · rename_i h
    have hpos := length_pos_of_starts h
    extract_lets sign
    split
    · rename_i hdigit
      have hdigits := length_pos_of_starts hdigit
      have hrun := run_le isDigitOrSeparator (cs.drop (1 + sign))
      rw [List.length_drop] at hdigits hrun
      omega
    · exact Nat.zero_le _
  · exact Nat.zero_le _

/-- A numeral starts with a digit, or with a point and a digit, so some part of it is not empty. -/
theorem decimal_fits {c : Char} {cs : List Char}
    (h : (isAsciiDigit c || (c == '.' && starts isAsciiDigit cs)) = true) :
    (decimal (c :: cs)).Fits (c :: cs) := by
  unfold decimal
  extract_lets whole fraction exponent
  have hwhole : whole ≤ (c :: cs).length := run_le _ _
  have hfraction : fraction ≤ (c :: cs).length - whole := by
    simpa using fractionLength_le ((c :: cs).drop whole)
  have hexponent : exponent ≤ (c :: cs).length - (whole + fraction) := by
    simpa using exponentLength_le ((c :: cs).drop (whole + fraction))
  have hpos : 0 < whole + fraction := by
    rcases Bool.or_eq_true_iff.1 h with h | h
    · have : 0 < whole := run_pos (by simp [isDigitOrSeparator, h])
      omega
    · obtain ⟨hc, hd⟩ := Bool.and_eq_true_iff.1 h
      have hc := eq_of_beq hc
      subst hc
      have hw : whole = 0 := by simp [whole, run, isDigitOrSeparator, isAsciiDigit]
      have : fraction = 1 + run isDigitOrSeparator cs := by
        simp only [starts] at hd
        simp [fraction, hw, fractionLength, starts, hd]
      omega
  exact .clean (by omega) (by omega)

theorem number_fits {c : Char} {cs : List Char}
    (h : (isAsciiDigit c || (c == '.' && starts isAsciiDigit cs)) = true) :
    (number (c :: cs)).Fits (c :: cs) := by
  unfold number
  split
  · rename_i marker rest heq
    split
    · rename_i digit _
      have hrun := run_le digit rest
      have hlen := congrArg List.length heq
      simp only [List.length_cons] at hlen
      exact .clean (by omega) (by simp only [List.length_cons]; omega)
    · exact decimal_fits h
  · exact decimal_fits h

/-! ### Punctuation -/

theorem cast?_fits {c : Char} {cs : List Char} {cut : Cut} (h : cast? (c :: cs) = some cut) :
    cut.Fits (c :: cs) := by
  unfold cast? at h
  extract_lets gap word tail close at h
  split at h
  · rename_i hc
    have hclose := length_pos_of_starts (Bool.and_eq_true_iff.1 hc).1
    have hlen : (tail.drop close).length = (c :: cs).length - (1 + gap + word.length) - close := by
      simp only [tail, List.length_drop]
    simp only [Option.some.injEq] at h
    subst h
    exact .clean (by omega) (by omega)
  · cases h

theorem closeTag_fits (cs : List Char) : (closeTag cs).Fits ('?' :: '>' :: cs) := by
  unfold closeTag
  dsimp only
  split <;> exact .clean (by omega) (by simp only [List.length_cons]; omega)

theorem operators_pos : ∀ o ∈ operators, 0 < o.1.length := by decide

theorem operator_fits {cs : List Char} (h : cs ≠ []) : (operator cs).Fits cs := by
  have hlen := List.length_pos_iff.2 h
  unfold operator
  split
  · rename_i text kind hfind
    have hpos := operators_pos _ (List.mem_of_find?_eq_some hfind)
    have hpre : text.isPrefixOf cs = true := by simpa using List.find?_some hfind
    exact .clean hpos (length_le_of_isPrefixOf hpre)
  · exact .faulty Nat.one_pos hlen

/-! ### All together -/

theorem code_fits {cs : List Char} (h : cs ≠ []) : (code cs).Fits cs := by
  unfold code
  split
  · exact attributeGroup_fits (by simp)
  · exact lineComment_fits (by simp [isLineEnd])
  · exact lineComment_fits (by simp [isLineEnd])
  · exact blockComment_fits (by simp)
  · exact closeTag_fits _
  · rename_i rest
    cases hc : cast? ('(' :: rest) with
    | none => exact .clean Nat.one_pos (by simp)
    | some cut => exact cast?_fits hc
  · rename_i rest
    cases hh : heredoc? ('<' :: '<' :: '<' :: rest) with
    | none => exact operator_fits h
    | some cut => exact heredoc?_fits hh
  · rename_i c rest _ _ _ _ _ _ _
    split
    · rename_i hb
      exact .clean (run_pos hb) (run_le _ _)
    · split
      · exact string_fits c h
      · split
        · rename_i hn
          exact number_fits hn
        · split
          · have := run_le isNamePart rest
            exact .clean (by omega) (by simp only [List.length_cons]; omega)
          · split
            · have := nameLength_bounds 1 rest
              exact .clean (by omega) (by simp only [List.length_cons]; omega)
            · exact operator_fits h
  · exact absurd rfl h

theorem Mode.cut_fits (mode : Mode) {cs : List Char} (h : cs ≠ []) : (mode.cut cs).Fits cs := by
  cases mode with
  | markup => exact markup_fits h
  | code => exact code_fits h

end ArrayShapes.Scan
