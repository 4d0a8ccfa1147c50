import ArrayShapes.Inference.Resolve
import ArrayShapes.Shape.Render
import ArrayShapes.Proofs.Literal.Interpolation
import ArrayShapes.Proofs.Syntax.Coverage
import ArrayShapes.Proofs.Token.Strings

/-!
Strings as tokens and their values. A string that is rendered is scanned as one token, whose value is
the string again. A string token that is closed has a value between single quotes; one that is not
closed has none, unless it ends in a quote that is escaped.
-/

namespace ArrayShapes

/-! ### Rendered strings -/

namespace Shape

/-- A text as it is written between single quotes. -/
def escapeSingle (cs : List Char) : List Char :=
  cs.flatMap fun c => if c == '\'' || c == '\\' then ['\\', c] else [c]

theorem toList_render_str (s : String) :
    (str s).render.toList = '\'' :: escapeSingle s.toList ++ ['\''] := by
  rw [render, String.toList_ofList]
  rfl

theorem enclosed_escapeSingle (cs : List Char) : Scan.Enclosed '\'' (escapeSingle cs) := by
  induction cs with
  | nil => exact .nil
  | cons c cs ih =>
      rw [escapeSingle, List.flatMap_cons]
      split
      · exact .escape c ih
      · next hplain =>
          obtain ⟨hquote, hslash⟩ : c ≠ '\'' ∧ c ≠ '\\' := by simpa using hplain
          exact .char hslash hquote ih

end Shape

namespace Literal

open Shape

theorem unescapeSingle_cons {c : Char} (hc : c ≠ '\\') (cs : List Char) :
    unescapeSingle (c :: cs) = c :: unescapeSingle cs := by
  rw [unescapeSingle]
  · exact fun _ h => absurd h hc
  · exact fun _ h => absurd h hc

theorem unescapeSingle_escapeSingle (cs : List Char) : unescapeSingle (escapeSingle cs) = cs := by
  induction cs with
  | nil => rfl
  | cons c cs ih =>
      rw [escapeSingle, List.flatMap_cons]
      by_cases hquote : c = '\''
      · subst hquote
        exact congrArg ('\'' :: ·) ih
      · by_cases hslash : c = '\\'
        · subst hslash
          exact congrArg ('\\' :: ·) ih
        · rw [if_neg (by simp [hquote, hslash]), List.singleton_append, unescapeSingle_cons hslash]
          exact congrArg (c :: ·) ih

end Literal

namespace Scan

open Text

theorem fromMode_cons (mode : Mode) (pos : Nat) (c : Char) (rest : List Char) (done : Scanned) :
    fromMode mode pos (c :: rest) done =
      fromMode (mode.cut (c :: rest)).mode
        (pos + byteLength (c :: rest.take ((mode.cut (c :: rest)).length - 1)))
        (rest.drop ((mode.cut (c :: rest)).length - 1))
        ⟨done.tokens.push ⟨(mode.cut (c :: rest)).kind, pos,
            String.ofList (c :: rest.take ((mode.cut (c :: rest)).length - 1))⟩,
          done.diagnostics ++
            ((mode.cut (c :: rest)).faults.map (·.diagnostic pos (c :: rest))).toArray⟩ := by
  rw [fromMode, utf8ByteSize_ofList]

theorem code_quote {quote : Char} (hquote : isQuote quote = true) (rest : List Char) :
    code (quote :: rest) = string quote (quote :: rest) := by
  rcases Bool.or_eq_true_iff.1 hquote with h | h <;> rw [eq_of_beq h] <;> rfl

/-- A closed string at the end of code is one token. -/
theorem fromMode_string {quote : Char} {body : List Char} (hquote : isQuote quote = true)
    (hbody : Enclosed quote body) (pos : Nat) (done : Scanned) :
    fromMode .code pos (quote :: body ++ [quote]) done =
      ⟨done.tokens.push ⟨.stringLiteral, pos, String.ofList (quote :: body ++ [quote])⟩,
        done.diagnostics⟩ := by
  have hcut : Mode.code.cut (quote :: (body ++ [quote])) =
      { kind := .stringLiteral, length := 1 + body.length + 1 } := by
    rw [Mode.cut, code_quote hquote, string, List.drop_one, List.tail_cons,
      hbody.closedLength?_eq (ne_backslash_of_isQuote hquote)]
  have htake : (body ++ [quote]).length = 1 + body.length + 1 - 1 := by simp; omega
  rw [List.cons_append, fromMode_cons, hcut, List.take_of_length_le htake.le,
    List.drop_of_length_le htake.le, fromMode]
  simp

/-- In front of a quote, an opening tag and a blank are one token each. -/
theorem scan_openTag {quote : Char} (hquote : isQuote quote = true) (rest : List Char) :
    scan ("<?php " ++ String.ofList (quote :: rest)) =
      fromMode .code 6 (quote :: rest) ⟨#[⟨.openTag, 0, "<?php"⟩, ⟨.whitespace, 5, " "⟩], #[]⟩ := by
  have hblank : isBlank quote = false := by
    rcases Bool.or_eq_true_iff.1 hquote with h | h <;> rw [eq_of_beq h] <;> rfl
  have htag : Mode.markup.cut ('<' :: '?' :: 'p' :: 'h' :: 'p' :: ' ' :: quote :: rest) =
      { kind := .openTag, length := 5 } := by
    have hphp : lower (String.ofList ['p', 'h', 'p']) = "php" := by
      rw [← String.toList_inj, lower, String.toList_map, String.toList_ofList]
      decide
    simp [Mode.cut, markup, openTag, hphp, isBlank]
  have hgap : Mode.code.cut (' ' :: quote :: rest) = { kind := .whitespace, length := 1 } := by
    have hrun : run isBlank (' ' :: quote :: rest) = 1 := by
      rw [run, List.takeWhile_cons_of_pos rfl, List.takeWhile_cons_of_neg (by simp [hblank])]
      rfl
    exact congrArg (Cut.mk .whitespace · [] .code) hrun
  rw [scan, String.toList_append, String.toList_ofList, String.toList_ofList]
  change fromMode .markup 0 ('<' :: '?' :: 'p' :: 'h' :: 'p' :: ' ' :: quote :: rest) _ = _
  rw [fromMode_cons, htag]
  change fromMode .code 5 (' ' :: quote :: rest) _ = _
  rw [fromMode_cons, hgap]
  rfl

end Scan

/-- A rendered string is one token behind an opening tag and a blank, without a problem, and its value
is the string. -/
theorem scan_render_str (s : String) :
    scan ("<?php " ++ (Shape.str s).render) =
      ⟨#[⟨.openTag, 0, "<?php"⟩, ⟨.whitespace, 5, " "⟩,
        ⟨.stringLiteral, 6, (Shape.str s).render⟩], #[]⟩ ∧
    Literal.unquote? (Shape.str s).render = some s := by
  have hrender := String.ofList_toList (s := (Shape.str s).render)
  rw [Shape.toList_render_str] at hrender
  rw [← hrender]
  constructor
  · rw [List.cons_append, Scan.scan_openTag rfl, ← List.cons_append,
      Scan.fromMode_string rfl (Shape.enclosed_escapeSingle _)]
    rfl
  · rw [Literal.unquote?_single, Literal.unescapeSingle_escapeSingle, String.ofList_toList]

/-! ### Strings that are not closed -/

namespace Scan

variable {quote : Char} {cs body after : List Char}

/-- A text without an unescaped quote may end in a backslash that escapes nothing. -/
theorem enclosed_cases (quote : Char) (cs : List Char) :
    Enclosed quote cs ∨ (∃ body, Enclosed quote body ∧ cs = body ++ ['\\']) ∨
      ∃ body after, Enclosed quote body ∧ cs = body ++ quote :: after := by
  fun_induction closedLength? quote 0 cs with
  | case1 => exact .inl .nil
  | case2 => exact .inr (.inl ⟨[], .nil, rfl⟩)
  | case3 _ c cs ih =>
      rcases ih with h | ⟨body, hbody, rfl⟩ | ⟨body, after, hbody, rfl⟩
      · exact .inl (h.escape c)
      · exact .inr (.inl ⟨'\\' :: c :: body, hbody.escape c, rfl⟩)
      · exact .inr (.inr ⟨'\\' :: c :: body, after, hbody.escape c, rfl⟩)
  | case4 _ c cs _ _ hc =>
      obtain rfl := eq_of_beq hc
      exact .inr (.inr ⟨[], cs, .nil, rfl⟩)
  | case5 _ c cs hlone hpair hc ih =>
      have hslash : c ≠ '\\' := by
        rintro rfl
        cases cs with
        | nil => exact hlone rfl rfl
        | cons d ds => exact hpair d ds rfl rfl
      have hquote : c ≠ quote := by simpa using hc
      rcases ih with h | ⟨body, hbody, rfl⟩ | ⟨body, after, hbody, rfl⟩
      · exact .inl (.char hslash hquote h)
      · exact .inr (.inl ⟨c :: body, .char hslash hquote hbody, rfl⟩)
      · exact .inr (.inr ⟨c :: body, after, .char hslash hquote hbody, rfl⟩)

/-- A quote in a string that nothing closes is escaped. -/
theorem Unclosed.escaped (h : Unclosed quote (body ++ quote :: after)) :
    ∃ front, Enclosed quote front ∧ body = front ++ ['\\'] := by
  rcases enclosed_cases quote body with hbody | hescaped | ⟨front, rest, hfront, rfl⟩
  · exact absurd rfl (h body after hbody)
  · exact hescaped
  · exact absurd (by simp) (h front (rest ++ quote :: after) hfront)

end Scan

namespace Literal

/-- Whether text between two quotes has a value. Between single quotes it always has. -/
def HasValue (quote : Char) (body : List Char) : Prop := quote = '"' → ¬Unescaped Refused body

/-- A text has a value if it ends with the quote it starts with and what is between has one. -/
theorem unquote?_isSome_iff {quote : Char} (hquote : Scan.isQuote quote = true) (cs : List Char) :
    (unquote? (String.ofList (quote :: cs))).isSome = true ↔
      ∃ body, cs = body ++ [quote] ∧ HasValue quote body := by
  have hbody (body : List Char) : body? quote (quote :: cs) = some body ↔ cs = body ++ [quote] := by
    rw [body?_eq_some_iff, List.cons_append, List.cons_inj_right]
  simp only [← hbody]
  rcases Bool.or_eq_true_iff.1 hquote with h | h
  · obtain rfl := eq_of_beq h
    cases hsome : body? '\'' ('\'' :: cs) with
    | some body => simp [unquote?, hsome, HasValue]
    | none => simp [unquote?, hsome, body?_of_head_ne]
  · obtain rfl := eq_of_beq h
    rw [unquote?_double]
    cases body? '"' ('"' :: cs) with
    | none => simp
    | some body => simp [HasValue, ← unescapeDouble?_eq_none_iff, Option.isSome_iff_ne_none]

end Literal

namespace Inference

open Syntax Scan Literal

/-- The scan has found the token at a node unterminated. -/
def IsReported (source : String) (n : Node) : Prop :=
  ∃ d ∈ (scan source).diagnostics, d.start = n.pos ∧ d.message = "Unterminated string literal."

theorem literal?_isSome_iff {n : Node} {quote : Char} {cs : List Char}
    (hkind : n.isToken .stringLiteral = true) (hquote : isQuote quote = true)
    (htext : n.text.toList = quote :: cs) :
    (literal? n).isSome = true ↔ ∃ body, cs = body ++ [quote] ∧ HasValue quote body := by
  rw [← unquote?_isSome_iff hquote, ← htext, String.ofList_toList, literal?, eq_of_beq hkind]
  simp

/-- A string that is not closed has no value, unless it ends in an escaped quote: that quote is then
taken for the closing one. A string that is closed has a value if its quotes are single. -/
theorem literal?_string_token (number : Nat) (uri text : String) {n : Node}
    (hn : n ∈ (Document.parse number uri text).root.descendants)
    (hkind : n.isToken .stringLiteral = true) :
    ∃ quote rest, n.text.toList = quote :: rest ∧ isQuote quote = true ∧
      (IsReported text n → ((literal? n).isSome = true ↔ ∃ body,
        rest = body ++ ['\\', quote] ∧ Enclosed quote body ∧ HasValue quote (body ++ ['\\']))) ∧
      (¬IsReported text n → quote = '\'' → (literal? n).isSome = true) := by
  obtain ⟨t, ht, htkind, htpos, httext⟩ := Node.exists_mem_scan hn hkind
  obtain ⟨-, quote, rest, -, -, hquote, hclosed | hopen⟩ := closed_or_open ht htkind
  · obtain ⟨⟨body, -, -, -, htext⟩, hsilent⟩ := hclosed
    rw [httext, List.cons_append] at htext
    refine ⟨quote, _, htext, hquote, fun hreported => ?_, fun _ hsingle => ?_⟩
    · obtain ⟨d, hd, hstart, -⟩ := hreported
      exact absurd (hstart.trans htpos.symm) (hsilent d (Array.mem_toList_iff.2 hd))
    · rw [literal?_isSome_iff hkind hquote htext]
      refine ⟨body, rfl, fun hdouble => ?_⟩
      cases hsingle.symm.trans hdouble
  · obtain ⟨line, after, rfl, htext, -⟩ := hopen.line
    rw [httext] at htext
    refine ⟨quote, line, htext, hquote, fun _ => ?_, fun hsilent => ?_⟩
    · rw [literal?_isSome_iff hkind hquote htext]
      constructor
      · rintro ⟨body, rfl, hvalue⟩
        have hunclosed := hopen.unclosed
        rw [List.append_assoc, List.singleton_append] at hunclosed
        obtain ⟨front, hfront, rfl⟩ := hunclosed.escaped
        exact ⟨front, by simp, hfront, hvalue⟩
      · rintro ⟨body, rfl, -, hvalue⟩
        exact ⟨body ++ ['\\'], by simp, hvalue⟩
    · obtain ⟨d, hd, hstart, -, hmessage⟩ := hopen.reported
      exact absurd ⟨d, Array.mem_toList_iff.1 hd, hstart.trans htpos, hmessage⟩ hsilent

/-- An escaped quote at the end of an open string is taken for the closing one. -/
theorem literal?_escaped_end :
    ∃ n ∈ (Document.parse 0 "" "<?php 'a\\'").root.descendants,
      n.isToken .stringLiteral = true ∧ IsReported "<?php 'a\\'" n ∧
      literal? n = some (.str "a\\") ∧
      ∃ quote rest body, n.text.toList = quote :: rest ∧ rest = body ++ ['\\', quote] ∧
        Enclosed quote body ∧ HasValue quote (body ++ ['\\']) := by
  have hnode : ((Document.parse 0 "" "<?php 'a\\'").root.descendants.map fun n =>
      (n.isToken .stringLiteral, n.pos))[6]? = some (true, 6) := by decide +kernel
  have htokens : (scan "<?php 'a\\'").tokens.toList.filter (·.kind = .stringLiteral) =
      [⟨.stringLiteral, 6, "'a\\'"⟩] := by decide +kernel
  have hreports : (scan "<?php 'a\\'").diagnostics = #[⟨6, 4, .unterminatedString⟩] := by decide +kernel
  obtain ⟨n, hn, heq⟩ := List.mem_map.1 (List.mem_of_getElem? hnode)
  obtain ⟨hkind, hpos⟩ := Prod.mk.inj heq
  have hreported : IsReported "<?php 'a\\'" n :=
    ⟨⟨6, 4, .unterminatedString⟩, by simp [hreports], hpos.symm, rfl⟩
  have htext : n.text = "'a\\'" := by
    obtain ⟨t, ht, htkind, -, httext⟩ := Node.exists_mem_scan hn hkind
    have hmem : t ∈ (scan "<?php 'a\\'").tokens.toList.filter (·.kind = .stringLiteral) :=
      List.mem_filter.2 ⟨ht, decide_eq_true htkind⟩
    rw [htokens, List.mem_singleton] at hmem
    rw [← httext, hmem]
  have hvalue : literal? n = some (.str "a\\") := by
    rw [literal?, eq_of_beq hkind, htext]
    rfl
  obtain ⟨quote, rest, hrest, -, hiff, -⟩ := literal?_string_token 0 "" "<?php 'a\\'" hn hkind
  obtain ⟨body, hbody⟩ := (hiff hreported).1 (by rw [hvalue]; rfl)
  exact ⟨n, hn, hkind, hreported, hvalue, quote, rest, body, hrest, hbody⟩

end Inference

end ArrayShapes
