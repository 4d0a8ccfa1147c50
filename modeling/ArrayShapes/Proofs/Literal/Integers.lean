import Mathlib.Data.List.Basic
import Mathlib.Data.List.TakeWhile
import Mathlib.Data.Nat.Digits.Defs
import Mathlib.Tactic.IntervalCases
import Mathlib.Tactic.SplitIfs
import ArrayShapes.Literal
import ArrayShapes.Proofs.Token.Kinds

/-!
Integer tokens and their values. The scan and the reading of a token have rules of their own for marks
of a radix, digits and separators; together they give a token the number that its digits stand for, or
nothing.
-/

namespace ArrayShapes

namespace Text

variable {radix n m d : Nat} {c : Char} {cs : List Char}

/-! ### Digits -/

theorem toNat_digitChar (h : d < 16) :
    (Nat.digitChar d).toNat = if d < 10 then d + 48 else d + 87 := by
  interval_cases d <;> rfl

theorem char_le_iff (a b : Char) : a ≤ b ↔ a.toNat ≤ b.toNat := Iff.rfl

theorem toNat_lowerAscii (c : Char) :
    (lowerAscii c).toNat = if 65 ≤ c.toNat ∧ c.toNat ≤ 90 then c.toNat + 32 else c.toNat := by
  simp only [lowerAscii, char_le_iff, Bool.and_eq_true, decide_eq_true_eq]
  change (if 65 ≤ c.toNat ∧ c.toNat ≤ 90 then _ else _ : Char).toNat = _
  split
  · rename_i h
    rw [Char.ofNat, dif_pos (.inl (by omega))]
    rfl
  · rfl

theorem lowerAscii_lowerAscii (c : Char) : lowerAscii (lowerAscii c) = lowerAscii c := by
  apply Char.toNat_inj.1
  rw [toNat_lowerAscii, toNat_lowerAscii]
  split_ifs <;> omega

theorem eq_of_lowerAscii_eq {c d : Char} (h : lowerAscii c = d) (hd : d.toNat < 97) : c = d := by
  have hnat := congrArg Char.toNat h
  rw [toNat_lowerAscii] at hnat
  apply Char.toNat_inj.1
  split_ifs at hnat <;> omega

theorem lowerAscii_of_isAsciiDigit (h : isAsciiDigit c = true) : lowerAscii c = c := by
  have hdigit : c.toNat ≤ 57 := by
    simp only [isAsciiDigit, char_le_iff, Bool.and_eq_true, decide_eq_true_eq] at h
    exact h.2
  apply Char.toNat_inj.1
  rw [toNat_lowerAscii, if_neg (by omega)]

theorem map_lowerAscii_of_digits (h : ∀ c ∈ cs, isAsciiDigit c = true) :
    cs.map lowerAscii = cs := by
  induction cs with
  | nil => rfl
  | cons c cs ih =>
      rw [List.forall_mem_cons] at h
      rw [List.map_cons, lowerAscii_of_isAsciiDigit h.1, ih h.2]

theorem digitValue?_eq_some_iff :
    digitValue? c = some d ↔ d < 16 ∧ lowerAscii c = Nat.digitChar d := by
  have hlower := toNat_lowerAscii c
  have hvalue : digitValue? c =
      if 48 ≤ c.toNat ∧ c.toNat ≤ 57 then some (c.toNat - 48)
      else if 97 ≤ c.toNat ∧ c.toNat ≤ 102 then some (c.toNat - 97 + 10)
      else if 65 ≤ c.toNat ∧ c.toNat ≤ 70 then some (c.toNat - 65 + 10)
      else none := by
    simp only [digitValue?, char_le_iff, Bool.and_eq_true, decide_eq_true_eq]
    rfl
  rw [hvalue]
  constructor
  · intro h
    have hd : d < 16 ∧ (lowerAscii c).toNat = if d < 10 then d + 48 else d + 87 := by
      rw [hlower]
      split_ifs at h ⊢ <;> simp at h <;> omega
    exact ⟨hd.1, Char.toNat_inj.1 (hd.2.trans (toNat_digitChar hd.1).symm)⟩
  · rintro ⟨hd, h⟩
    have hnat := congrArg Char.toNat h
    rw [hlower, toNat_digitChar hd] at hnat
    grind

theorem digit?_eq_some_iff (hradix : radix ≤ 16) :
    digit? radix c = some d ↔ d < radix ∧ lowerAscii c = Nat.digitChar d := by
  rw [digit?, Option.filter_eq_some_iff, digitValue?_eq_some_iff, decide_eq_true_eq]
  constructor
  · rintro ⟨⟨-, hc⟩, hd⟩
    exact ⟨hd, hc⟩
  · rintro ⟨hd, hc⟩
    exact ⟨⟨hd.trans_le hradix, hc⟩, hd⟩

/-! ### Numerals -/

/-- `cs` are the digits of `n` in a radix, with letters in either case; there is at least one. -/
def IsNumeral (radix : Nat) (cs : List Char) (n : Nat) : Prop :=
  ∃ ds : List Nat, ds ≠ [] ∧ (∀ d ∈ ds, d < radix) ∧ cs.map lowerAscii = ds.map Nat.digitChar ∧
    n = Nat.ofDigits radix ds.reverse

theorem numeralFrom?_eq_some_iff (hradix : radix ≤ 16) :
    numeralFrom? radix n cs = some m ↔ ∃ ds : List Nat, (∀ d ∈ ds, d < radix) ∧
      cs.map lowerAscii = ds.map Nat.digitChar ∧
      m = n * radix ^ ds.length + Nat.ofDigits radix ds.reverse := by
  induction cs generalizing n with
  | nil =>
      constructor
      · intro h
        cases h
        exact ⟨[], by simp, rfl, by simp⟩
      · rintro ⟨ds, -, hds, rfl⟩
        cases List.map_eq_nil_iff.1 hds.symm
        simp [numeralFrom?]
  | cons c cs ih =>
      have hvalue (d : Nat) (ds : List Nat) :
          (n * radix + d) * radix ^ ds.length + Nat.ofDigits radix ds.reverse =
            n * radix ^ (d :: ds).length + Nat.ofDigits radix (d :: ds).reverse := by
        rw [Nat.ofDigits_reverse_cons, List.length_cons, Nat.pow_succ]
        ring
      rw [numeralFrom?, Option.bind_eq_bind, Option.bind_eq_some_iff]
      constructor
      · rintro ⟨d, hd, hcs⟩
        obtain ⟨hlt, hc⟩ := (digit?_eq_some_iff hradix).1 hd
        obtain ⟨ds, hds, hmap, rfl⟩ := ih.1 hcs
        exact ⟨d :: ds, by simpa using ⟨hlt, hds⟩, by simp [hc, hmap], hvalue d ds⟩
      · rintro ⟨ds, hds, hmap, rfl⟩
        cases ds with
        | nil => cases hmap
        | cons d ds =>
            rw [List.map_cons, List.map_cons, List.cons.injEq] at hmap
            rw [List.forall_mem_cons] at hds
            exact ⟨d, (digit?_eq_some_iff hradix).2 ⟨hds.1, hmap.1⟩,
              ih.2 ⟨ds, hds.2, hmap.2, (hvalue d ds).symm⟩⟩

theorem numeral?_eq_some_iff (hradix : radix ≤ 16) :
    numeral? radix cs = some n ↔ IsNumeral radix cs n := by
  cases cs with
  | nil =>
      constructor
      · intro h
        cases h
      · rintro ⟨ds, hne, -, hmap, -⟩
        exact absurd (List.map_eq_nil_iff.1 hmap.symm) hne
  | cons c cs =>
      rw [numeral?, numeralFrom?_eq_some_iff hradix]
      constructor
      · rintro ⟨ds, hds, hmap, rfl⟩
        refine ⟨ds, ?_, hds, hmap, by simp⟩
        rintro rfl
        cases hmap
      · rintro ⟨ds, -, hds, hmap, rfl⟩
        exact ⟨ds, hds, hmap, by simp⟩

theorem signed?_of_unsigned {z : Int} (hsign : ∀ c ∈ cs, c ≠ '-' ∧ c ≠ '+') :
    signed? radix cs = some z ↔ ∃ n, numeral? radix cs = some n ∧ n ≤ 2 ^ 63 - 1 ∧ z = n := by
  have hunsigned : unsigned? radix cs = numeral? radix cs := by
    unfold unsigned?
    split
    · exact absurd rfl (hsign '+' List.mem_cons_self).2
    · rfl
  unfold signed?
  split
  · exact absurd rfl (hsign '-' List.mem_cons_self).1
  · simp only [hunsigned, Option.bind_eq_bind, Option.pure_def, Option.map_eq_some_iff,
      Option.bind_eq_some_iff, Option.filter_eq_some_iff, decide_eq_true_eq, Option.some.injEq]
    constructor
    · rintro ⟨_, ⟨n, ⟨hn, hlt⟩, rfl⟩, rfl⟩
      exact ⟨n, hn, by omega, rfl⟩
    · rintro ⟨n, hn, hle, rfl⟩
      exact ⟨n, ⟨n, ⟨hn, by omega⟩, rfl⟩, rfl⟩

end Text

/-! ### Cuts of integers -/

namespace Scan

theorem number_eq (cs : List Char) :
    (∃ mark rest digit, cs = '0' :: mark :: rest ∧ radixDigit? mark = some digit ∧
      number cs = { kind := .integerLiteral, length := 2 + run digit rest }) ∨
    number cs = decimal cs := by
  unfold number
  split
  · rename_i mark rest
    split
    · rename_i digit hdigit
      exact .inl ⟨mark, rest, digit, rfl, hdigit, rfl⟩
    · exact .inr rfl
  · exact .inr rfl

theorem length_decimal {cs : List Char} (h : (decimal cs).kind = .integerLiteral) :
    (decimal cs).length = run isDigitOrSeparator cs := by
  unfold decimal at h ⊢
  dsimp only at h ⊢
  split at h
  · omega
  · cases h

theorem take_run (p : Char → Bool) (cs : List Char) : cs.take (run p cs) = cs.takeWhile p :=
  (List.prefix_iff_eq_take.1 (List.takeWhile_prefix p)).symm

end Scan

namespace Literal

open Text

/-! ### Marks of a radix -/

/-- How an integer is written: `text` without separators is the mark of a radix with what stands behind
it. A zero in front of further digits is such a mark too. -/
inductive Marked : List Char → Nat → List Char → Prop
  | hexadecimal {mark : Char} (h : mark = 'x' ∨ mark = 'X') (body : List Char) :
      Marked ('0' :: mark :: body) 16 body
  | binary {mark : Char} (h : mark = 'b' ∨ mark = 'B') (body : List Char) :
      Marked ('0' :: mark :: body) 2 body
  | octal {mark : Char} (h : mark = 'o' ∨ mark = 'O') (body : List Char) :
      Marked ('0' :: mark :: body) 8 body
  | zero {body : List Char} (hne : body ≠ []) (hdigits : ∀ c ∈ body, isAsciiDigit c = true) :
      Marked ('0' :: body) 8 body
  | decimal {body : List Char} (hzero : body.head? = some '0' → body = ['0'])
      (hdigits : ∀ c ∈ body, isAsciiDigit c = true) : Marked body 10 body

variable {text body : List Char} {radix : Nat}

theorem radixOf_of_marked (h : Marked text radix body) :
    radixOf (text.map lowerAscii) = (radix, body.map lowerAscii) := by
  cases h with
  | hexadecimal hmark => rcases hmark with rfl | rfl <;> rfl
  | binary hmark => rcases hmark with rfl | rfl <;> rfl
  | octal hmark => rcases hmark with rfl | rfl <;> rfl
  | zero hne hdigits =>
      rw [List.map_cons, map_lowerAscii_of_digits hdigits]
      cases body with
      | nil => exact absurd rfl hne
      | cons c cs =>
          have hc : c ≠ 'x' ∧ c ≠ 'b' ∧ c ≠ 'o' := by
            refine ⟨?_, ?_, ?_⟩ <;> rintro rfl <;> cases hdigits _ List.mem_cons_self
          simp [radixOf, lowerAscii, hc]
  | decimal hzero hdigits =>
      rw [map_lowerAscii_of_digits hdigits]
      cases text with
      | nil => rfl
      | cons c cs =>
          by_cases hc : c = '0'
          · subst hc
            rw [hzero rfl]
            rfl
          · simp [radixOf, hc]

/-! ### Integer tokens -/

theorem mark_of_lowerAscii {mark lower upper : Char} (h : lowerAscii mark = lower)
    (hcase : upper.toNat + 32 = lower.toNat) : mark = lower ∨ mark = upper := by
  have hnat := congrArg Char.toNat h
  rw [toNat_lowerAscii] at hnat
  split at hnat
  · exact .inr (Char.toNat_inj.1 (by omega))
  · exact .inl (Char.toNat_inj.1 hnat)

theorem exists_marked_of_radixDigit? {mark : Char} {digit : Char → Bool}
    (h : Scan.radixDigit? mark = some digit) (body : List Char) :
    ∃ radix, Marked ('0' :: mark :: body) radix body := by
  unfold Scan.radixDigit? at h
  split at h
  · rename_i hmark
    exact ⟨16, .hexadecimal (mark_of_lowerAscii hmark rfl) body⟩
  · rename_i hmark
    exact ⟨8, .octal (mark_of_lowerAscii hmark rfl) body⟩
  · rename_i hmark
    exact ⟨2, .binary (mark_of_lowerAscii hmark rfl) body⟩
  · cases h

theorem not_sign_of_radixDigit? {mark : Char} {digit : Char → Bool}
    (h : Scan.radixDigit? mark = some digit) : digit '-' = false ∧ digit '+' = false := by
  unfold Scan.radixDigit? at h
  split at h <;> cases h <;> decide

theorem exists_marked_of_digits (h : ∀ c ∈ text, isAsciiDigit c = true) :
    ∃ radix body, Marked text radix body ∧ ∀ c ∈ body, isAsciiDigit c = true := by
  cases text with
  | nil => exact ⟨10, [], .decimal (by simp) h, h⟩
  | cons c cs =>
      by_cases hzero : c = '0' ∧ cs ≠ []
      · obtain ⟨rfl, hne⟩ := hzero
        rw [List.forall_mem_cons] at h
        exact ⟨8, cs, .zero hne h.2, h.2⟩
      · have hdecimal : (c :: cs).head? = some '0' → c :: cs = ['0'] := by
          intro hc
          cases hc
          simpa using hzero
        exact ⟨10, c :: cs, .decimal hdecimal h, h⟩

theorem exists_marked_of_number {cs : List Char} (h : (Scan.number cs).kind = .integerLiteral) :
    ∃ radix body, Marked ((cs.take (Scan.number cs).length).filter (· != '_')) radix body ∧
      ∀ c ∈ body, c ≠ '-' ∧ c ≠ '+' := by
  rcases Scan.number_eq cs with ⟨mark, rest, digit, rfl, hdigit, hcut⟩ | hcut
  · obtain ⟨radix, hmarked⟩ :=
      exists_marked_of_radixDigit? hdigit ((rest.takeWhile digit).filter (· != '_'))
    have hmark : mark ≠ '_' := by
      rintro rfl
      cases hdigit
    have htext : (('0' :: mark :: rest).take (2 + Scan.run digit rest)).filter (· != '_') =
        '0' :: mark :: (rest.takeWhile digit).filter (· != '_') := by
      rw [Nat.add_comm, List.take_succ_cons, List.take_succ_cons, Scan.take_run]
      simp [hmark]
    rw [hcut, htext]
    refine ⟨radix, _, hmarked, fun c hc => ?_⟩
    have hc := List.mem_takeWhile_imp (List.mem_of_mem_filter hc)
    obtain ⟨hminus, hplus⟩ := not_sign_of_radixDigit? hdigit
    constructor <;> rintro rfl
    · cases hc.symm.trans hminus
    · cases hc.symm.trans hplus
  · rw [hcut] at h ⊢
    rw [Scan.length_decimal h, Scan.take_run]
    have hdigits : ∀ c ∈ (cs.takeWhile Scan.isDigitOrSeparator).filter (· != '_'),
        isAsciiDigit c = true := by
      intro c hc
      rw [List.mem_filter] at hc
      have hdigit := List.mem_takeWhile_imp hc.1
      simp_all [Scan.isDigitOrSeparator]
    obtain ⟨radix, body, hmarked, hbody⟩ := exists_marked_of_digits hdigits
    refine ⟨radix, body, hmarked, fun c hc => ?_⟩
    constructor <;> rintro rfl <;> cases hbody _ hc

/-- The mark of the radix is the same however the text is seen, and all that is left is its end. -/
theorem Marked.unique {radix' : Nat} {body' : List Char} (h : Marked text radix body)
    (h' : Marked text radix' body') : radix' = radix ∧ body' = body := by
  have hsuffix {radix : Nat} {body : List Char} (h : Marked text radix body) : body <:+ text := by
    cases h with
    | hexadecimal | binary | octal => exact ⟨['0', _], rfl⟩
    | zero => exact ⟨['0'], rfl⟩
    | decimal => exact List.suffix_refl _
  have hread := (radixOf_of_marked h').symm.trans (radixOf_of_marked h)
  rw [Prod.mk.injEq] at hread
  have hlength := congrArg List.length hread.2
  rw [List.length_map, List.length_map] at hlength
  exact ⟨hread.1, (List.suffix_of_suffix_length_le (hsuffix h') (hsuffix h)
    hlength.le).eq_of_length hlength⟩

theorem Marked.radix_le (h : Marked text radix body) : radix ≤ 16 := by
  cases h <;> decide

theorem integer?_of_marked {text : String} (h : Marked (text.toList.filter (· != '_')) radix body)
    (hsign : ∀ c ∈ body, c ≠ '-' ∧ c ≠ '+') (z : Int) :
    integer? text = some z ↔ ∃ n, IsNumeral radix body n ∧ n ≤ 2 ^ 63 - 1 ∧ z = n := by
  have hsign' : ∀ c ∈ body.map lowerAscii, c ≠ '-' ∧ c ≠ '+' := by
    intro d hd
    obtain ⟨c, hc, rfl⟩ := List.mem_map.1 hd
    refine ⟨fun hminus => (hsign c hc).1 ?_, fun hplus => (hsign c hc).2 ?_⟩
    · exact eq_of_lowerAscii_eq hminus (by decide)
    · exact eq_of_lowerAscii_eq hplus (by decide)
  have hbody : (body.map lowerAscii).map lowerAscii = body.map lowerAscii := by
    simp [lowerAscii_lowerAscii]
  rw [integer?, radixOf_of_marked h]
  dsimp only
  rw [signed?_of_unsigned hsign']
  simp only [numeral?_eq_some_iff h.radix_le, IsNumeral, hbody]

/-- An integer token is written in one radix, and what it stands for is the number with these digits if
they are digits of the radix, at least one, and the number is below 2 to the 63rd; otherwise nothing. -/
theorem integer?_token (source : String) {t : Token} (ht : t ∈ (scan source).tokens)
    (hkind : t.kind = .integerLiteral) :
    ∃ radix body, Marked (t.text.toList.filter (· != '_')) radix body ∧
      (∀ radix' body', Marked (t.text.toList.filter (· != '_')) radix' body' →
        radix' = radix ∧ body' = body) ∧
      ∀ z : Int, integer? t.text = some z ↔
        ∃ n, IsNumeral radix body n ∧ n ≤ 2 ^ 63 - 1 ∧ z = n := by
  obtain ⟨mode, -, rest, -, -, hcut⟩ :=
    (Scan.scan_reads source).exists_isCutOff (Array.mem_toList_iff.2 ht)
  have hnumber := Scan.Mode.cut_eq_number (hcut.kind.trans hkind)
  have hkind' := hcut.kind.trans hkind
  have htext := hcut.text
  rw [hnumber] at hkind' htext
  obtain ⟨radix, body, hmarked, hsign⟩ := exists_marked_of_number hkind'
  rw [← htext] at hmarked
  exact ⟨radix, body, hmarked, fun _ _ => hmarked.unique, integer?_of_marked hmarked hsign⟩

/-- The largest number there is, with separators between its digits. -/
theorem integer?_token_largest :
    ⟨.integerLiteral, 6, "0X7fff_ffff_ffff_FFFF"⟩ ∈ (scan "<?php 0X7fff_ffff_ffff_FFFF").tokens ∧
      integer? "0X7fff_ffff_ffff_FFFF" = some (2 ^ 63 - 1) := by
  have htokens : (scan "<?php 0X7fff_ffff_ffff_FFFF").tokens.toList =
      [⟨.openTag, 0, "<?php"⟩, ⟨.whitespace, 5, " "⟩,
        ⟨.integerLiteral, 6, "0X7fff_ffff_ffff_FFFF"⟩] := by decide +kernel
  have ht : ⟨.integerLiteral, 6, "0X7fff_ffff_ffff_FFFF"⟩ ∈
      (scan "<?php 0X7fff_ffff_ffff_FFFF").tokens := by
    rw [← Array.mem_toList_iff, htokens]
    simp
  have hmarked : Marked ("0X7fff_ffff_ffff_FFFF".toList.filter (· != '_')) 16
      "7fffffffffffFFFF".toList := .hexadecimal (.inr rfl) _
  obtain ⟨radix, body, -, hunique, hvalue⟩ := integer?_token _ ht rfl
  obtain ⟨rfl, rfl⟩ := hunique _ _ hmarked
  refine ⟨ht, (hvalue _).2 ⟨2 ^ 63 - 1, ⟨7 :: List.replicate 15 15, ?_, ?_, ?_, ?_⟩, ?_, ?_⟩⟩
  · simp
  · decide
  · rfl
  · rfl
  · decide
  · rfl

end Literal

end ArrayShapes
