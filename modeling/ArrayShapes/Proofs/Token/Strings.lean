import Mathlib.Data.List.TakeWhile
import ArrayShapes.Proofs.Token.Kinds

/-!
String tokens. A string ends at the first quote of its own kind that is not escaped. Where the rest of
the source has none it ends with its line, and this is reported of the whole token. Nothing else that
is reported starts where a string does.
-/

namespace ArrayShapes.Scan

open Text

/-! ### Quoted text -/

/-- Text without an unescaped `quote`, read from left to right with a backslash escaping the
character after it. -/
inductive Enclosed (quote : Char) : List Char → Prop
  | nil : Enclosed quote []
  | escape (c : Char) {cs : List Char} (rest : Enclosed quote cs) : Enclosed quote ('\\' :: c :: cs)
  | char {c : Char} {cs : List Char} (hslash : c ≠ '\\') (hquote : c ≠ quote)
      (rest : Enclosed quote cs) : Enclosed quote (c :: cs)

/-- No unescaped `quote` stands anywhere in a text. -/
def Unclosed (quote : Char) (cs : List Char) : Prop :=
  ∀ body after, Enclosed quote body → cs ≠ body ++ quote :: after

variable {quote : Char} {cs rest body : List Char}

theorem ne_backslash_of_isQuote (h : isQuote quote = true) : quote ≠ '\\' := by
  rintro rfl
  cases h

theorem closedLength?_cons {c : Char} (hc : c ≠ '\\') (n : Nat) (cs : List Char) :
    closedLength? quote n (c :: cs) =
      if c == quote then some (n + 1) else closedLength? quote (n + 1) cs := by
  rw [closedLength?]
  · exact fun h => absurd h hc
  · exact fun _ _ h => absurd h hc

theorem exists_enclosed_of_closedLength? {n m : Nat} (h : closedLength? quote n cs = some m) :
    ∃ body after, cs = body ++ quote :: after ∧ Enclosed quote body ∧ m = n + body.length + 1 := by
  fun_induction closedLength? quote n cs with
  | case1 => cases h
  | case2 => cases h
  | case3 n c cs ih =>
      obtain ⟨body, after, rfl, hbody, rfl⟩ := ih h
      exact ⟨'\\' :: c :: body, after, rfl, hbody.escape c, by simp only [List.length_cons]; omega⟩
  | case4 n c cs _ _ hc =>
      obtain rfl := eq_of_beq hc
      cases h
      exact ⟨[], cs, rfl, .nil, rfl⟩
  | case5 n c cs hlone hpair hc ih =>
      have hslash : c ≠ '\\' := by
        rintro rfl
        cases cs with
        | nil => exact hlone rfl rfl
        | cons d ds => exact hpair d ds rfl rfl
      obtain ⟨body, after, rfl, hbody, rfl⟩ := ih h
      exact ⟨c :: body, after, rfl, .char hslash (by simpa using hc) hbody,
        by simp only [List.length_cons]; omega⟩

theorem Enclosed.closedLength?_eq (h : Enclosed quote body) (hquote : quote ≠ '\\') (n : Nat)
    (after : List Char) :
    closedLength? quote n (body ++ quote :: after) = some (n + body.length + 1) := by
  induction h generalizing n with
  | nil => simp [closedLength?_cons hquote]
  | escape c _ ih =>
      rw [List.cons_append, List.cons_append, closedLength?, ih]
      simp only [List.length_cons, Option.some.injEq]
      omega
  | @char c cs hslash hne _ ih =>
      rw [List.cons_append, closedLength?_cons hslash, if_neg (by simpa using hne), ih]
      simp only [List.length_cons, Option.some.injEq]
      omega

theorem closedLength?_eq_none_iff (hquote : quote ≠ '\\') {n : Nat} :
    closedLength? quote n cs = none ↔ Unclosed quote cs := by
  constructor
  · rintro h body after hbody rfl
    rw [hbody.closedLength?_eq hquote] at h
    cases h
  · intro h
    cases hlength : closedLength? quote n cs with
    | none => rfl
    | some m =>
        obtain ⟨body, after, hcs, hbody, -⟩ := exists_enclosed_of_closedLength? hlength
        exact absurd hcs (h body after hbody)

/-! ### Cuts of strings -/

/-- A string is closed by the first quote that can close it, or ends with its line because there is
no such quote. -/
theorem string_cases (hquote : isQuote quote = true) (rest : List Char) :
    (∃ body after, rest = body ++ quote :: after ∧ Enclosed quote body ∧
      string quote (quote :: rest) = { kind := .stringLiteral, length := body.length + 2 }) ∨
    Unclosed quote rest ∧ string quote (quote :: rest) =
      .faulty .stringLiteral (run (!isLineEnd ·) rest + 1) .unterminatedString := by
  have hslash := ne_backslash_of_isQuote hquote
  cases hlength : closedLength? quote 1 rest with
  | some n =>
      obtain ⟨body, after, rfl, hbody, rfl⟩ := exists_enclosed_of_closedLength? hlength
      refine .inl ⟨body, after, rfl, hbody, ?_⟩
      simp only [string, List.drop_succ_cons, List.drop_zero, hlength]
      congr 1
      omega
  | none =>
      refine .inr ⟨(closedLength?_eq_none_iff hslash).1 hlength, ?_⟩
      have hline : isLineEnd quote = false := by
        rcases Bool.or_eq_true_iff.1 hquote with h | h <;> rw [eq_of_beq h] <;> rfl
      have hrun : run (!isLineEnd ·) (quote :: rest) = run (!isLineEnd ·) rest + 1 := by
        simp [run, hline]
      simp only [string, List.drop_succ_cons, List.drop_zero, hlength, hrun]
      rw [Nat.max_eq_right (Nat.le_add_left 1 _)]

/-! ### String tokens -/

/-- A string that `quote` opens in front of `rest` and the first unescaped one closes; nothing is
reported where it starts. -/
def IsClosedString (t : Token) (ds : List Diagnostic) (quote : Char) (rest : List Char) : Prop :=
  (∃ body after, rest = body ++ quote :: after ∧ Enclosed quote body ∧
    t.text.toList = quote :: body ++ [quote]) ∧
  ∀ d ∈ ds, d.start ≠ t.pos

/-- A string that `quote` opens in front of `rest` and nothing closes; it ends with its line and is
reported. -/
structure IsOpenString (t : Token) (ds : List Diagnostic) (quote : Char) (rest : List Char) :
    Prop where
  unclosed : Unclosed quote rest
  reported : ∃ d ∈ ds, d.start = t.pos ∧ d.length = t.size ∧
    d.message = "Unterminated string literal."
  line : ∃ line after, rest = line ++ after ∧ t.text.toList = quote :: line ∧
    (∀ c ∈ line, c ≠ '\n' ∧ c ≠ '\r') ∧
    ∀ c, after.head? = some c → c = '\n' ∨ c = '\r'

variable {t : Token} {ds : List Diagnostic} {mode : Mode}

theorem IsCutOff.isClosedString {body after : List Char}
    (h : IsCutOff t ds mode (quote :: (body ++ quote :: after))) (hbody : Enclosed quote body)
    (hcut : mode.cut (quote :: (body ++ quote :: after)) =
      { kind := .stringLiteral, length := body.length + 2 }) :
    IsClosedString t ds quote (body ++ quote :: after) := by
  refine ⟨⟨body, after, rfl, hbody, ?_⟩, fun d hd hstart => ?_⟩
  · have htext : quote :: (body ++ quote :: after) = (quote :: body ++ [quote]) ++ after := by simp
    rw [h.text, hcut, htext, List.take_left' (by simp)]
  · obtain ⟨f, hf, -⟩ := h.reports d hd hstart
    rw [hcut] at hf
    cases hf

theorem IsCutOff.isOpenString (h : IsCutOff t ds mode (quote :: rest))
    (hunclosed : Unclosed quote rest) (hcut : mode.cut (quote :: rest) =
      .faulty .stringLiteral (run (!isLineEnd ·) rest + 1) .unterminatedString) :
    IsOpenString t ds quote rest := by
  have htext : t.text.toList = quote :: rest.takeWhile (!isLineEnd ·) := by
    rw [h.text, hcut, Cut.faulty, run, List.take_succ_cons,
      ← List.prefix_iff_eq_take.1 (List.takeWhile_prefix _)]
  refine ⟨hunclosed, ?_, _, _, List.takeWhile_append_dropWhile.symm, htext, ?_, ?_⟩
  · refine ⟨_, h.faults ⟨0, _, .unterminatedString⟩ (by rw [hcut]; exact List.mem_singleton_self _),
      rfl, ?_, rfl⟩
    have hsize : t.size = byteLength t.text.toList := (byteLength_toList t.text).symm
    rw [hsize, h.text, hcut]
    rfl
  · intro c hc
    simpa [isLineEnd] using List.mem_takeWhile_imp hc
  · intro c hc
    have hline := List.head?_dropWhile_not (!isLineEnd ·) rest
    rw [hc] at hline
    have hend : isLineEnd c = true := by simpa using hline
    simpa [isLineEnd] using hend

/-- A string token is closed, or open and reported. -/
theorem closed_or_open {source : String} {t : Token} (ht : t ∈ (scan source).tokens.toList)
    (hkind : t.kind = .stringLiteral) :
    ∃ before quote rest, source.toList = before ++ quote :: rest ∧ byteLength before = t.pos ∧
      isQuote quote = true ∧
      (IsClosedString t (scan source).diagnostics.toList quote rest ∨
        IsOpenString t (scan source).diagnostics.toList quote rest) := by
  obtain ⟨mode, before, rest, hsource, hpos, hcut⟩ := (scan_reads source).exists_isCutOff ht
  obtain ⟨quote, rest, rfl, hquote, hstring⟩ := Mode.cut_eq_string (hcut.kind.trans hkind)
  refine ⟨before, quote, rest, hsource, by rw [hpos, Nat.zero_add], hquote, ?_⟩
  rcases string_cases hquote rest with ⟨body, after, rfl, hbody, heq⟩ | ⟨hunclosed, heq⟩
  · exact .inl (hcut.isClosedString hbody (hstring.trans heq))
  · exact .inr (hcut.isOpenString hunclosed (hstring.trans heq))

/-- Every string token either is closed, by the first quote that can close it, and nothing is reported
where it starts; or no quote in the rest of the source can close it, and it ends with its line and is
reported. -/
theorem scan_strings (source : String) {t : Token} (ht : t ∈ (scan source).tokens)
    (hkind : t.kind = .stringLiteral) :
    ∃ before quote rest, source.toList = before ++ quote :: rest ∧ byteLength before = t.pos ∧
      isQuote quote = true ∧
      Xor (IsClosedString t (scan source).diagnostics.toList quote rest)
        (IsOpenString t (scan source).diagnostics.toList quote rest) := by
  obtain ⟨before, quote, rest, hsource, hpos, hquote, hstring⟩ :=
    closed_or_open (Array.mem_toList_iff.2 ht) hkind
  refine ⟨before, quote, rest, hsource, hpos, hquote, ?_⟩
  have hnot : IsClosedString t (scan source).diagnostics.toList quote rest →
      ¬IsOpenString t (scan source).diagnostics.toList quote rest := by
    rintro ⟨⟨body, after, hrest, hbody, -⟩, -⟩ hopen
    exact hopen.unclosed body after hbody hrest
  rcases hstring with hclosed | hopen
  · exact .inl ⟨hclosed, hnot hclosed⟩
  · exact .inr ⟨hopen, fun hclosed => hnot hclosed hopen⟩

/-- A string with an escaped quote in it, and one that is never closed. -/
theorem scan_strings_escaped_open :
    (scan "<?php 'a\\'b' \"c\n").tokens.toList.filter (·.kind = .stringLiteral) =
      [⟨.stringLiteral, 6, "'a\\'b'"⟩, ⟨.stringLiteral, 13, "\"c"⟩] ∧
    ∀ t ∈ [⟨.stringLiteral, 6, "'a\\'b'"⟩, ⟨.stringLiteral, 13, "\"c"⟩],
      ∃ before quote rest, "<?php 'a\\'b' \"c\n".toList = before ++ quote :: rest ∧
        byteLength before = t.pos ∧ isQuote quote = true ∧
        Xor (IsClosedString t (scan "<?php 'a\\'b' \"c\n").diagnostics.toList quote rest)
          (IsOpenString t (scan "<?php 'a\\'b' \"c\n").diagnostics.toList quote rest) := by
  have htokens : (scan "<?php 'a\\'b' \"c\n").tokens.toList.filter (·.kind = .stringLiteral) =
      [⟨.stringLiteral, 6, "'a\\'b'"⟩, ⟨.stringLiteral, 13, "\"c"⟩] := by decide +kernel
  refine ⟨htokens, fun t ht => ?_⟩
  rw [← htokens, List.mem_filter] at ht
  exact scan_strings _ (Array.mem_toList_iff.1 ht.1) (of_decide_eq_true ht.2)

end ArrayShapes.Scan
