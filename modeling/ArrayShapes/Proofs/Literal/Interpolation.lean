import Mathlib.Algebra.Group.Nat.Defs
import Mathlib.Data.List.TakeWhile
import Mathlib.Order.Basic
import ArrayShapes.Literal

/-!
Interpolated strings. Between double quotes a `$` that no backslash escapes makes a variable of the
name behind it, and such a text has no value. It does so wherever it stands: an escape takes no `$`
along but the one right behind its backslash.
-/

namespace ArrayShapes

namespace Text

variable {radix n m : Nat} {cs : List Char}

theorem isDigit_of_numeralFrom? (h : numeralFrom? radix n cs = some m) :
    ∀ c ∈ cs, isDigit radix c = true := by
  induction cs generalizing n with
  | nil => simp
  | cons c cs ih =>
      obtain ⟨d, hd, hcs⟩ := Option.bind_eq_some_iff.1 h
      rw [List.forall_mem_cons]
      exact ⟨by simp [isDigit, hd], ih hcs⟩

theorem isDigit_of_numeral? (h : numeral? radix cs = some m) : ∀ c ∈ cs, isDigit radix c = true := by
  cases cs with
  | nil => cases h
  | cons c cs => exact isDigit_of_numeralFrom? h

/-- Digits make a numeral, which is less than any number with one more. -/
theorem exists_numeralFrom?_lt (h : ∀ c ∈ cs, isDigit radix c = true) (n : Nat) :
    ∃ m, numeralFrom? radix n cs = some m ∧ m < (n + 1) * radix ^ cs.length := by
  induction cs generalizing n with
  | nil => exact ⟨n, rfl, by simp⟩
  | cons c cs ih =>
      rw [List.forall_mem_cons] at h
      obtain ⟨d, hd⟩ := Option.isSome_iff_exists.1 h.1
      have hlt : d < radix := by simpa using (Option.filter_eq_some_iff.1 hd).2
      obtain ⟨m, hm, hbound⟩ := ih h.2 (n * radix + d)
      refine ⟨m, by simp [numeralFrom?, hd, hm], hbound.trans_le ?_⟩
      calc (n * radix + d + 1) * radix ^ cs.length
          ≤ ((n + 1) * radix) * radix ^ cs.length := by
            apply Nat.mul_le_mul_right
            rw [Nat.add_mul]
            omega
        _ = (n + 1) * radix ^ (c :: cs).length := by
            rw [List.length_cons, Nat.pow_succ, Nat.mul_assoc, Nat.mul_comm radix]

theorem exists_numeral?_lt (h : ∀ c ∈ cs, isDigit radix c = true) (hcs : cs ≠ []) :
    ∃ m, numeral? radix cs = some m ∧ m < radix ^ cs.length := by
  cases cs with
  | nil => exact absurd rfl hcs
  | cons c cs => simpa [numeral?] using exists_numeralFrom?_lt h 0

end Text

namespace Literal

open Text

/-! ### Places in a text -/

/-- `p` holds of the rest of the text at some place, where the text is read from left to right and a
backslash escapes the character after it. -/
inductive Unescaped (p : List Char → Prop) : List Char → Prop
  | here {cs : List Char} (h : p cs) : Unescaped p cs
  | escape (c : Char) {cs : List Char} (rest : Unescaped p cs) : Unescaped p ('\\' :: c :: cs)
  | char {c : Char} {cs : List Char} (hslash : c ≠ '\\') (rest : Unescaped p cs) :
      Unescaped p (c :: cs)

/-- A dollar sign and the first character of a name. -/
def OpensVariable (cs : List Char) : Prop :=
  ∃ c rest, cs = '$' :: c :: rest ∧ isVariableStart c = true

/-- A dollar sign and a brace. -/
def OpensBraced (cs : List Char) : Prop := ∃ rest, cs = '$' :: '{' :: rest

/-- An escape by code point whose braces hold no numeral, or one that is no code point. -/
def NamesNothing (cs : List Char) : Prop :=
  ∃ rest, cs = '\\' :: 'u' :: '{' :: rest ∧
    (unsigned? 16 (rest.takeWhile (· != '}'))).bind charOf? = none

/-- What leaves a text between double quotes without a value. -/
def Refused (cs : List Char) : Prop := OpensVariable cs ∨ NamesNothing cs

/-- A character at which neither a variable nor an escape starts. -/
def notDollarOrBackslash (c : Char) : Bool := c != '$' && c != '\\'

variable {c : Char} {cs ds rest : List Char} {p q : List Char → Prop}

theorem Unescaped.mono (h : Unescaped p cs) (hpq : ∀ cs, p cs → q cs) : Unescaped q cs := by
  induction h with
  | here h => exact .here (hpq _ h)
  | escape c _ ih => exact .escape c ih
  | char hslash _ ih => exact .char hslash ih

theorem Unescaped.or_iff :
    Unescaped (fun cs => p cs ∨ q cs) cs ↔ Unescaped p cs ∨ Unescaped q cs := by
  constructor
  · intro h
    induction h with
    | here h => exact h.imp .here .here
    | escape c _ ih => exact ih.imp (.escape c) (.escape c)
    | char hslash _ ih => exact ih.imp (.char hslash) (.char hslash)
  · rintro (h | h)
    · exact h.mono fun _ => .inl
    · exact h.mono fun _ => .inr

theorem unescaped_nil : ¬Unescaped Refused [] := by
  rintro ⟨⟨_, _, heq, _⟩ | ⟨_, heq, _⟩⟩ <;> cases heq

theorem unescaped_char_iff (hslash : c ≠ '\\') (hc : ¬OpensVariable (c :: cs)) :
    Unescaped Refused (c :: cs) ↔ Unescaped Refused cs := by
  refine ⟨fun h => ?_, .char hslash⟩
  cases h with
  | here h =>
      rcases h with hvariable | ⟨_, heq, _⟩
      · exact absurd hvariable hc
      · cases heq
        exact absurd rfl hslash
  | escape => exact absurd rfl hslash
  | char _ h => exact h

theorem unescaped_escape_iff (hvalue : ¬NamesNothing ('\\' :: c :: cs)) :
    Unescaped Refused ('\\' :: c :: cs) ↔ Unescaped Refused cs := by
  refine ⟨fun h => ?_, .escape c⟩
  cases h with
  | here h =>
      rcases h with ⟨_, _, heq, _⟩ | hnone
      · cases heq
      · exact absurd hnone hvalue
  | escape _ h => exact h
  | char hslash => exact absurd rfl hslash

/-- Plain text may be passed over. -/
theorem unescaped_append_iff (h : ∀ d ∈ ds, notDollarOrBackslash d = true) :
    Unescaped Refused (ds ++ rest) ↔ Unescaped Refused rest := by
  induction ds with
  | nil => rfl
  | cons d ds ih =>
      rw [List.forall_mem_cons] at h
      obtain ⟨hdollar, hslash⟩ : d ≠ '$' ∧ d ≠ '\\' := by simpa [notDollarOrBackslash] using h.1
      rw [List.cons_append, unescaped_char_iff hslash, ih h.2]
      rintro ⟨_, _, heq, _⟩
      exact hdollar (List.cons.inj heq).1

/-! ### Escapes -/

theorem notDollarOrBackslash_of_isDigit {radix : Nat} (h : isDigit radix c = true) :
    notDollarOrBackslash c = true := by
  rw [notDollarOrBackslash, Bool.and_eq_true, bne_iff_ne, bne_iff_ne]
  constructor
  · rintro rfl
    cases h
  · rintro rfl
    cases h

theorem notDollarOrBackslash_of_unsigned? {radix n : Nat} (h : unsigned? radix cs = some n) :
    ∀ c ∈ cs, notDollarOrBackslash c = true := by
  unfold unsigned? at h
  split at h
  · rw [List.forall_mem_cons]
    exact ⟨rfl, fun c hc => notDollarOrBackslash_of_isDigit (isDigit_of_numeral? h c hc)⟩
  · exact fun c hc => notDollarOrBackslash_of_isDigit (isDigit_of_numeral? h c hc)

theorem isDigit_of_mem_digits {radix most : Nat} (h : c ∈ digits radix most cs) :
    isDigit radix c = true :=
  List.mem_takeWhile_imp h

theorem length_digits_le (radix most : Nat) (cs : List Char) : (digits radix most cs).length ≤ most :=
  ((List.takeWhile_prefix _).length_le).trans (List.length_take_le most cs)

theorem digits_append_drop (radix most : Nat) (cs : List Char) :
    digits radix most cs ++ cs.drop (digits radix most cs).length = cs := by
  have hprefix : digits radix most cs <+: cs :=
    (List.takeWhile_prefix _).trans (List.take_prefix most cs)
  conv => rhs; rw [← List.take_append_drop (digits radix most cs).length cs]
  rw [← List.prefix_iff_eq_take.1 hprefix]

theorem charOf?_of_lt {n : Nat} (h : n < 256) : charOf? n = some (Char.ofNat n) := by
  rw [charOf?, if_pos (.inl (by omega))]

/-- What an escape takes behind its backslash: one character and plain text after it. -/
def Takes (cs : List Char) (taken : Nat) : Prop :=
  cs = [] ∨ ∃ c ds, cs = c :: ds ++ cs.drop taken ∧ ∀ d ∈ ds, notDollarOrBackslash d = true

theorem Takes.one (c : Char) (cs : List Char) : Takes (c :: cs) 1 := .inr ⟨c, [], rfl, by simp⟩

theorem takes_digits (c : Char) (radix most : Nat) (cs : List Char) :
    Takes (c :: cs) ((digits radix most cs).length + 1) := by
  refine .inr ⟨c, digits radix most cs, ?_, fun d hd => ?_⟩
  · rw [List.drop_succ_cons, List.cons_append, digits_append_drop]
  · exact notDollarOrBackslash_of_isDigit (isDigit_of_mem_digits hd)

/-- The braces of a code point are taken along, also if they are never closed. -/
theorem takes_codePoint {n : Nat} (h : unsigned? 16 (cs.takeWhile (· != '}')) = some n) :
    Takes ('u' :: '{' :: cs) ((cs.takeWhile (· != '}')).length + 3) := by
  obtain ⟨tail, hcs, htail⟩ : ∃ tail, cs = cs.takeWhile (· != '}') ++ tail ∧
      ∀ c, tail.head? = some c → c = '}' := by
    refine ⟨_, List.takeWhile_append_dropWhile.symm, fun c hc => ?_⟩
    have hbrace := List.head?_dropWhile_not (· != '}') cs
    rw [hc] at hbrace
    simpa using hbrace
  have hplain := notDollarOrBackslash_of_unsigned? h
  generalize cs.takeWhile (· != '}') = ds at hcs hplain ⊢
  subst hcs
  cases tail with
  | nil =>
      refine .inr ⟨'u', '{' :: ds, by simp, ?_⟩
      rw [List.forall_mem_cons]
      exact ⟨rfl, hplain⟩
  | cons c tail =>
      obtain rfl := htail c rfl
      refine .inr ⟨'u', '{' :: ds ++ ['}'], by simp, ?_⟩
      rw [List.cons_append, List.forall_mem_cons, List.forall_mem_append]
      exact ⟨rfl, hplain, by simp [notDollarOrBackslash]⟩

/-- An escape has no value exactly if it is one by code point that names nothing. -/
theorem escape?_cases (cs : List Char) :
    NamesNothing ('\\' :: cs) ∧ escape? cs = none ∨
    ¬NamesNothing ('\\' :: cs) ∧ ∃ out taken, escape? cs = some (out, taken) ∧ Takes cs taken := by
  have hother {c : Char} {cs : List Char} (hc : ∀ cs', c = 'u' → cs = '{' :: cs' → False) :
      ¬NamesNothing ('\\' :: c :: cs) := by
    rintro ⟨rest, heq, -⟩
    cases heq
    exact hc rest rfl rfl
  fun_cases escape? cs
  case case1 =>
    refine .inr ⟨?_, _, _, rfl, .inl rfl⟩
    rintro ⟨_, heq, -⟩
    cases heq
  case case11 cs ds =>
    cases hvalue : (unsigned? 16 ds).bind charOf? with
    | none =>
        refine .inl ⟨⟨cs, rfl, hvalue⟩, ?_⟩
        cases hn : unsigned? 16 ds with
        | none => rfl
        | some n =>
            rw [hn, Option.bind_some] at hvalue
            simp [hvalue]
    | some c =>
        obtain ⟨n, hn, hc⟩ := Option.bind_eq_some_iff.1 hvalue
        refine .inr ⟨?_, [c], ds.length + 3, by simp [hn, hc], takes_codePoint hn⟩
        rintro ⟨_, heq, hnone⟩
        cases heq
        cases hvalue.symm.trans hnone
  case case12 c cs _ _ _ _ _ _ _ _ _ hu hc ds =>
    have hdigits : ∀ d ∈ ds, isDigit 8 d = true :=
      List.forall_mem_cons.2 ⟨hc, fun d hd => isDigit_of_mem_digits hd⟩
    obtain ⟨n, hn, -⟩ := exists_numeral?_lt hdigits (List.cons_ne_nil _ _)
    refine .inr ⟨hother hu, [Char.ofNat (n % 256)], ds.length, ?_, takes_digits c 8 2 cs⟩
    simp [hn, charOf?_of_lt (Nat.mod_lt n (by decide : 0 < 256))]
  case case13 c cs _ _ _ _ _ _ _ _ _ hu _ hx ds =>
    have hdigits : ∀ d ∈ ds, isDigit 16 d = true := fun d hd => isDigit_of_mem_digits hd
    have hne : ds ≠ [] := by
      cases cs with
      | nil => simp at hx
      | cons d cs =>
          have hd : isDigit 16 d = true := by simpa using (Bool.and_eq_true_iff.1 hx).2
          simp [ds, digits, hd]
    obtain ⟨n, hn, hlt⟩ := exists_numeral?_lt hdigits hne
    have hlt : n < 256 := hlt.trans_le (Nat.pow_le_pow_right (by decide) (length_digits_le 16 2 cs))
    exact .inr ⟨hother hu, [Char.ofNat n], ds.length + 1, by simp [hn, charOf?_of_lt hlt],
      takes_digits c 16 2 cs⟩
  case case14 c cs _ _ _ _ _ _ _ _ _ hu _ _ => exact .inr ⟨hother hu, _, _, rfl, .one c cs⟩
  all_goals exact .inr ⟨hother fun _ heq => absurd heq (by decide), _, _, rfl, .one _ _⟩

theorem unescaped_takes_iff {taken : Nat} (h : Takes cs taken) (hvalue : ¬NamesNothing ('\\' :: cs)) :
    Unescaped Refused ('\\' :: cs) ↔ Unescaped Refused (cs.drop taken) := by
  rcases h with rfl | ⟨c, ds, hcs, hplain⟩
  · rw [List.drop_nil]
    refine iff_of_false (fun h => ?_) unescaped_nil
    cases h with
    | here h =>
        rcases h with ⟨_, _, heq, _⟩ | hnone
        · cases heq
        · exact hvalue hnone
    | char hslash => exact hslash rfl
  · rw [hcs, List.cons_append] at hvalue
    conv => lhs; rw [hcs, List.cons_append]
    rw [unescaped_escape_iff hvalue, unescaped_append_iff hplain]

/-! ### Values -/

theorem opensVariable_iff :
    OpensVariable (c :: cs) ↔ (c == '$' && cs.head?.any isVariableStart) = true := by
  rw [Bool.and_eq_true, beq_iff_eq]
  constructor
  · rintro ⟨d, rest, heq, hd⟩
    cases heq
    exact ⟨rfl, hd⟩
  · rintro ⟨rfl, hd⟩
    cases cs with
    | nil => cases hd
    | cons d rest => exact ⟨d, rest, rfl, hd⟩

/-- A text has no value exactly if something in it is refused. -/
theorem unescapeDouble?_eq_none_iff : unescapeDouble? cs = none ↔ Unescaped Refused cs := by
  fun_induction unescapeDouble? cs with
  | case1 => exact iff_of_false (by simp) unescaped_nil
  | case2 cs ih =>
      rcases escape?_cases cs with ⟨hnone, hescape⟩ | ⟨hvalue, out, taken, hescape, htakes⟩
      · exact iff_of_true (by rw [hescape]; rfl) (.here (.inr hnone))
      · rw [unescaped_takes_iff htakes hvalue, ← ih taken, hescape]
        cases hrest : unescapeDouble? (cs.drop taken) <;> simp [hrest]
  | case3 c cs _ hvariable => exact iff_of_true rfl (.here (.inl (opensVariable_iff.2 hvariable)))
  | case4 c cs hslash hplain ih =>
      rw [unescaped_char_iff hslash (mt opensVariable_iff.1 hplain), ← ih, Option.map_eq_none_iff]

theorem body?_eq_some_iff {quote : Char} {body : List Char} :
    body? quote cs = some body ↔ cs = quote :: body ++ [quote] := by
  cases cs with
  | nil => simp [body?]
  | cons c cs =>
      rw [body?]
      constructor
      · intro h
        split at h
        · next hends =>
            obtain ⟨rfl, hlast⟩ : c = quote ∧ cs.getLast? = some quote := by simpa using hends
            obtain ⟨front, rfl⟩ := List.getLast?_eq_some_iff.1 hlast
            rw [List.dropLast_concat, Option.some.injEq] at h
            rw [h, List.cons_append]
        · cases h
      · intro h
        cases h
        simp

theorem body?_of_head_ne {quote c : Char} (hc : c ≠ quote) (cs : List Char) :
    body? quote (c :: cs) = none := by
  simp [body?, hc]

theorem unquote?_single (body : List Char) :
    unquote? (String.ofList ('\'' :: body ++ ['\''])) = some (String.ofList (unescapeSingle body)) := by
  rw [unquote?, String.toList_ofList, body?_eq_some_iff.2 rfl]

theorem unquote?_double (cs : List Char) :
    unquote? (String.ofList ('"' :: cs)) =
      ((body? '"' ('"' :: cs)).bind unescapeDouble?).map String.ofList := by
  rw [unquote?, String.toList_ofList, body?_of_head_ne (by decide)]

/-- Text between double quotes has no value exactly if the start of a variable or an escape that names
nothing stands in it. A brace behind a dollar sign is not looked for. -/
theorem unquote?_eq_none_iff (body : List Char) :
    unquote? (String.ofList ('"' :: body ++ ['"'])) = none ↔
      Unescaped OpensVariable body ∨ Unescaped NamesNothing body := by
  rw [← Unescaped.or_iff, List.cons_append, unquote?_double, ← List.cons_append,
    body?_eq_some_iff.2 rfl, Option.bind_some, Option.map_eq_none_iff]
  exact unescapeDouble?_eq_none_iff

/-- A variable in braces is taken for text. -/
theorem unquote?_braced :
    Unescaped OpensBraced "$\x7bx\x7d".toList ∧ unquote? "\"$\x7bx\x7d\"" = some "$\x7bx\x7d" ∧
      ¬(Unescaped OpensVariable "$\x7bx\x7d".toList ∨ Unescaped NamesNothing "$\x7bx\x7d".toList) := by
  have hvalue : unquote? "\"$\x7bx\x7d\"" = some "$\x7bx\x7d" := by
    simp [unquote?, body?, unescapeDouble?, isVariableStart, isAsciiLetter, isAscii]
  refine ⟨.here ⟨_, rfl⟩, hvalue, fun h => ?_⟩
  cases hvalue.symm.trans ((unquote?_eq_none_iff _).2 h)

end Literal

end ArrayShapes
