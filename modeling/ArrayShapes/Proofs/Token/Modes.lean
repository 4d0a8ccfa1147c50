import Mathlib.Computability.Language
import Mathlib.Data.List.Chain
import Mathlib.Order.CompletePartialOrder
import ArrayShapes.Proofs.Token.Kinds

/-!
Markup and code. The kinds of the tokens of a source are a word of a regular language: markup and tags
take turns, and everything else stands behind an opening tag. Tokens that go on as far as they can
do not hold what ends them, and none of their kind comes next.
-/

namespace ArrayShapes.Scan

open Computability Text

/-! ### Kinds in order -/

def isCodeKind : TokenKind → Bool
  | .inlineHtml | .openTag | .openTagWithEcho | .closeTag => false
  | _ => true

def html : Language TokenKind := {[.inlineHtml]}

def opening : Language TokenKind := {[.openTag], [.openTagWithEcho]}

def closing : Language TokenKind := {[.closeTag]}

def codeToken : Language TokenKind := {w | ∃ kind, isCodeKind kind = true ∧ w = [kind]}

/-- Code behind its opening tag, with the markup in front of it. -/
def opened : Language TokenKind := (1 + html) * opening * codeToken∗

/-- Code that is closed, as often as one likes, and then markup or code up to the end. -/
def sources : Language TokenKind := (opened * closing)∗ * (1 + (html + opened))

/-- What may come behind an opening tag. -/
def entered : Language TokenKind := codeToken∗ * (1 + closing * sources)

theorem nil_mem_entered : [] ∈ entered :=
  Language.append_mem_mul (a := []) (Language.nil_mem_kstar _) (.inl rfl)

theorem cons_mem_entered {kind : TokenKind} {w : List TokenKind} (hkind : isCodeKind kind = true)
    (hw : w ∈ entered) : kind :: w ∈ entered := by
  have hle : codeToken * entered ≤ entered := by
    rw [entered, ← mul_assoc]
    gcongr
    exact mul_kstar_le_kstar
  exact hle (Language.append_mem_mul (a := [kind]) ⟨kind, hkind, rfl⟩ hw)

theorem closeTag_cons_mem_entered {w : List TokenKind} (hw : w ∈ sources) :
    .closeTag :: w ∈ entered := by
  have hle : closing * sources ≤ entered :=
    calc closing * sources = 1 * (closing * sources) := (one_mul _).symm
      _ ≤ codeToken∗ * (1 + closing * sources) := by
        gcongr
        · exact one_le_kstar
        · exact le_add_self
  have hclosing : [.closeTag] ∈ closing := rfl
  exact hle (Language.append_mem_mul hclosing hw)

theorem opened_mul_le : opened * (1 + closing * sources) ≤ sources := by
  have hlast : opened ≤ sources :=
    calc opened = 1 * opened := (one_mul _).symm
      _ ≤ (opened * closing)∗ * (1 + (html + opened)) := by
        gcongr
        · exact one_le_kstar
        · exact le_add_of_le_right le_add_self
  have hmore : opened * closing * sources ≤ sources := by
    rw [sources, ← mul_assoc]
    gcongr
    exact mul_kstar_le_kstar
  rw [mul_add, mul_one, ← mul_assoc]
  exact add_le hlast hmore

/-- What may come outside of code where the text is `cs`. -/
def markupFollows : List Char → Language TokenKind
  | [] => 1
  | '<' :: '?' :: _ => opening * entered
  | _ => html * (1 + opening * entered)

def Mode.follows : Mode → List Char → Language TokenKind
  | .markup, cs => markupFollows cs
  | .code, _ => entered

theorem markupFollows_of_ne {cs : List Char} (hnil : cs ≠ []) (hne : ∀ rest, cs ≠ '<' :: '?' :: rest) :
    markupFollows cs = html * (1 + opening * entered) := by
  unfold markupFollows
  split
  · exact absurd rfl hnil
  · exact absurd rfl (hne _)
  · rfl

theorem markupFollows_le (cs : List Char) : markupFollows cs ≤ sources := by
  have hopened : opening * entered + html * (opening * entered) ≤ sources := by
    have hle := opened_mul_le
    rwa [opened, mul_assoc, mul_assoc, ← entered, add_mul, one_mul] at hle
  have hend : 1 + (html + opened) ≤ sources := le_mul_of_one_le_left' one_le_kstar
  unfold markupFollows
  split
  · exact le_self_add.trans hend
  · exact le_self_add.trans hopened
  · rw [mul_add, mul_one]
    exact add_le ((le_self_add.trans le_add_self).trans hend) (le_add_self.trans hopened)

/-! ### Modes and kinds -/

/-- A token of code is a closing tag, behind which there is markup, or keeps to code. -/
theorem CodeCut.kind_mode {cs : List Char} {cut : Cut} (h : CodeCut cs cut) :
    cut.kind = .closeTag ∧ cut.mode = .markup ∨ isCodeKind cut.kind = true ∧ cut.mode = .code := by
  cases h with
  | closeTag => exact .inl ⟨rfl, rfl⟩
  | attributes cs =>
      right
      unfold attributeGroup
      split <;> exact ⟨rfl, rfl⟩
  | blockComment cs =>
      obtain ⟨kind, length, rfl | rfl, hcut | hcut⟩ := blockComment_form ('/' :: '*' :: cs)
      all_goals
        rw [hcut]
        exact .inr ⟨rfl, rfl⟩
  | cast hcast =>
      obtain ⟨length, rfl⟩ := cast?_form hcast
      exact .inr ⟨rfl, rfl⟩
  | heredoc hdoc =>
      obtain ⟨length, rfl | rfl⟩ := heredoc?_form hdoc <;> exact .inr ⟨rfl, rfl⟩
  | string =>
      right
      unfold Scan.string
      split <;> exact ⟨rfl, rfl⟩
  | number =>
      obtain ⟨kind, length, rfl | rfl, hcut⟩ := number_form cs <;> rw [hcut] <;> exact .inr ⟨rfl, rfl⟩
  | operator =>
      have hkinds : ∀ kind ∈ operatorKinds, isCodeKind kind = true := by decide
      obtain ⟨kind, length, hmem, hcut | hcut⟩ := operator_form cs
      all_goals
        rw [hcut]
        exact .inr ⟨hkinds kind hmem, rfl⟩
  | lineComment | openParen | blank | variableName | name => exact .inr ⟨rfl, rfl⟩

theorem openTag_kind_mode (cs : List Char) :
    [(openTag cs).kind] ∈ opening ∧ (openTag cs).mode = .code := by
  unfold openTag
  split
  · exact ⟨.inl rfl, rfl⟩
  · split
    · exact ⟨.inr rfl, rfl⟩
    · exact ⟨.inl rfl, rfl⟩

/-! ### Text that a token does not hold -/

section

variable {needle cs : List Char} {n m : Nat}

theorem exists_of_before? (hne : needle ≠ []) (h : before? needle n cs = some m) :
    ∃ front back, cs = front ++ (needle ++ back) ∧ m = n + front.length ∧ ¬needle <:+: front := by
  induction cs generalizing n with
  | nil => cases h
  | cons c cs ih =>
      rw [before?] at h
      split at h
      · rename_i hneedle
        obtain ⟨back, hback⟩ := List.isPrefixOf_iff_prefix.1 hneedle
        cases h
        exact ⟨[], back, hback.symm, rfl, by simpa using hne⟩
      · rename_i hneedle
        obtain ⟨front, back, rfl, rfl, hfront⟩ := ih h
        refine ⟨c :: front, back, rfl, by simp only [List.length_cons]; omega, ?_⟩
        rw [List.infix_cons_iff]
        rintro (hfirst | hlater)
        · exact hneedle (List.isPrefixOf_iff_prefix.2 (hfirst.trans (List.prefix_append ..)))
        · exact hfront hlater

theorem not_infix_of_before? (hne : needle ≠ []) (h : before? needle n cs = none) :
    ¬needle <:+: cs := by
  induction cs generalizing n with
  | nil => simpa using hne
  | cons c cs ih =>
      rw [before?] at h
      split at h
      · cases h
      · rename_i hneedle
        rw [List.infix_cons_iff]
        rintro (hfirst | hlater)
        · exact hneedle (List.isPrefixOf_iff_prefix.2 hfirst)
        · exact ih h hlater

/-- Outside of code a token is an opening tag, or the text in front of the next one. -/
theorem markup_cases (cs : List Char) :
    (∃ rest, cs = '<' :: '?' :: rest ∧ markup cs = openTag rest) ∨
    (∀ rest, cs ≠ '<' :: '?' :: rest) ∧ ∃ front back, cs = front ++ back ∧
      ¬['<', '?'] <:+: front ∧ (back = [] ∨ ∃ rest, back = '<' :: '?' :: rest) ∧
      markup cs = { kind := .inlineHtml, length := front.length, mode := .markup } := by
  unfold markup
  split
  · rename_i rest
    exact .inl ⟨rest, rfl, rfl⟩
  · rename_i hne
    refine .inr ⟨hne, ?_⟩
    cases h : before? ['<', '?'] 0 cs with
    | none =>
        exact ⟨cs, [], by simp, not_infix_of_before? (by simp) h, .inl rfl, rfl⟩
    | some m =>
        obtain ⟨front, back, rfl, rfl, hfront⟩ := exists_of_before? (by simp) h
        exact ⟨front, _, rfl, hfront, .inr ⟨back, rfl⟩, by simp⟩

theorem exists_lineComment (n : Nat) (cs : List Char) :
    ∃ front back, cs = front ++ back ∧ lineCommentLength n cs = n + front.length ∧
      ¬['?', '>'] <:+: front := by
  induction cs generalizing n with
  | nil => exact ⟨[], [], rfl, rfl, by simp⟩
  | cons c cs ih =>
      rw [lineCommentLength]
      split
      · exact ⟨[], c :: cs, rfl, rfl, by simp⟩
      · rename_i hend
        obtain ⟨front, back, rfl, hlength, hfront⟩ := ih (n + 1)
        refine ⟨c :: front, back, rfl, by rw [hlength, List.length_cons]; omega, ?_⟩
        rw [List.infix_cons_iff]
        rintro (⟨rest, hfirst⟩ | hlater)
        · simp only [List.cons_append, List.nil_append, List.cons.injEq] at hfirst
          obtain ⟨rfl, rfl⟩ := hfirst
          simp [starts] at hend
        · exact hfront hlater

end

theorem run_drop_run (p : Char → Bool) (cs : List Char) : run p (cs.drop (run p cs)) = 0 := by
  induction cs with
  | nil => rfl
  | cons c cs ih =>
      by_cases hc : p c = true
      · simpa [run, hc] using ih
      · simp [run, hc]

namespace Reads

variable {mode : Mode} {pos : Nat} {cs : List Char} {ts : List Token} {ds : List Diagnostic}

/-- By induction on the tokens, with the language of what may come where the text is `cs`. -/
theorem kinds_mem (h : Reads mode pos cs ts ds) : ts.map Token.kind ∈ mode.follows cs := by
  induction h with
  | @done mode pos =>
      cases mode with
      | markup => exact Language.nil_mem_one
      | code => exact nil_mem_entered
  | @next mode pos cs ts ds hfits hrest ih =>
      rw [List.map_cons]
      cases mode with
      | code =>
          change (code cs).kind :: _ ∈ entered
          change _ ∈ (code cs).mode.follows _ at ih
          rcases (code_cases cs).kind_mode with ⟨hkind, hmode⟩ | ⟨hkind, hmode⟩ <;> rw [hmode] at ih
          · rw [hkind]
            exact closeTag_cons_mem_entered (markupFollows_le _ ih)
          · exact cons_mem_entered hkind ih
      | markup =>
          have hpos := hfits.pos
          change 0 < (markup cs).length at hpos
          change (markup cs).kind :: _ ∈ markupFollows cs
          change _ ∈ (markup cs).mode.follows (cs.drop (markup cs).length) at ih
          rcases markup_cases cs with
            ⟨rest, rfl, hcut⟩ | ⟨hne, front, back, rfl, hfront, hback, hcut⟩ <;>
            rw [hcut] at ih hpos ⊢
          · obtain ⟨hkind, hmode⟩ := openTag_kind_mode rest
            rw [hmode] at ih
            exact Language.append_mem_mul hkind ih
          · have hnil : front ++ back ≠ [] := by
              simp [List.ne_nil_of_length_pos hpos]
            have hlater : ts.map Token.kind ∈ 1 + opening * entered := by
              rw [List.drop_left] at ih
              rcases hback with rfl | ⟨rest, rfl⟩
              · exact .inl ih
              · exact .inr ih
            have hhtml : [.inlineHtml] ∈ html := rfl
            rw [markupFollows_of_ne hnil hne]
            exact Language.append_mem_mul hhtml hlater

theorem head_cut (h : Reads mode pos cs ts ds) {t : Token} (ht : ts.head? = some t) :
    (mode.cut cs).kind = t.kind ∧ (mode.cut cs).Fits cs := by
  cases h with
  | done => cases ht
  | next hfits =>
      cases ht
      exact ⟨rfl, hfits⟩

/-- Blank text is taken as far as it goes, so the next token starts with something else. -/
theorem isChain_whitespace (h : Reads mode pos cs ts ds) :
    ts.IsChain fun t u => ¬(t.kind = .whitespace ∧ u.kind = .whitespace) := by
  induction h with
  | done => exact .nil
  | @next mode pos cs ts ds hfits hrest ih =>
      rw [List.isChain_cons]
      refine ⟨fun u hu => ?_, ih⟩
      rintro ⟨hblank, hblank'⟩
      obtain ⟨hkind, hfits'⟩ := hrest.head_cut hu
      have hpos := hfits'.pos
      rw [Mode.cut_eq_blank (hkind.trans hblank'), Mode.cut_eq_blank hblank, run_drop_run] at hpos
      cases hpos

end Reads

/-! ### Tokens -/

/-- A comment that a slash pair or a number sign opens; attributes are no such comments. -/
def IsLineComment (t : Token) : Prop :=
  t.kind = .comment ∧ (['/', '/'] <+: t.text.toList ∨
    ['#'] <+: t.text.toList ∧ ¬['#', '['] <+: t.text.toList)

section

variable {t : Token} {ds : List Diagnostic} {mode : Mode} {rest : List Char}

theorem IsCutOff.not_infix_html (h : IsCutOff t ds mode rest) (hkind : t.kind = .inlineHtml) :
    ¬['<', '?'] <:+: t.text.toList := by
  have hcut := h.kind.trans hkind
  cases mode with
  | code =>
      rcases (code_cases rest).kind_mode with ⟨hcode, -⟩ | ⟨hcode, -⟩
      · cases hcut.symm.trans hcode
      · change isCodeKind (Mode.code.cut rest).kind = true at hcode
        rw [hcut] at hcode
        cases hcode
  | markup =>
      have htext := h.text
      change t.text.toList = rest.take (markup rest).length at htext
      change (markup rest).kind = _ at hcut
      rcases markup_cases rest with ⟨rest, rfl, heq⟩ | ⟨-, front, back, rfl, hfront, -, heq⟩
      · have hopening := (openTag_kind_mode rest).1
        rw [← heq, hcut] at hopening
        rcases hopening with hopening | hopening <;> cases hopening
      · rwa [htext, heq, List.take_left]

theorem two_le_attributeGroup_length (cs : List Char) : 2 ≤ (attributeGroup cs).length := by
  have hbounds := @attributeFrom_bounds 2 1 0 [] (cs.drop 2) (Nat.zero_le _) (by simp)
  unfold attributeGroup
  split
  · rename_i heq
    rw [heq] at hbounds
    exact hbounds.1
  · rename_i heq
    rw [heq] at hbounds
    exact hbounds.1

/-- What opens a line comment tells that it is cut as one. -/
theorem IsCutOff.cut_eq_lineComment (h : IsCutOff t ds mode rest) (hline : IsLineComment t) :
    mode.cut rest = { kind := .comment, length := lineCommentLength 0 rest } := by
  obtain ⟨hkind, hopens⟩ := hline
  cases mode with
  | markup =>
      have htrivia : (Mode.markup.cut rest).kind.isTrivia = false := markup_not_isTrivia rest
      rw [h.kind, hkind] at htrivia
      cases htrivia
  | code =>
      have htext : t.text.toList = rest.take (code rest).length := h.text
      have hfront : t.text.toList <+: rest := htext ▸ List.take_prefix _ rest
      rcases hopens with hslashes | ⟨hsign, hattribute⟩
      · obtain ⟨body, rfl⟩ := hslashes.trans hfront
        rfl
      · obtain ⟨body, rfl⟩ := hsign.trans hfront
        cases body with
        | nil => rfl
        | cons c body =>
            by_cases hc : c = '['
            · subst hc
              rw [htext, List.prefix_take_iff] at hattribute
              exact absurd ⟨List.prefix_append _ body, two_le_attributeGroup_length _⟩ hattribute
            · simp [Mode.cut, code, hc]

theorem IsCutOff.not_infix_lineComment (h : IsCutOff t ds mode rest) (hline : IsLineComment t) :
    ¬['?', '>'] <:+: t.text.toList := by
  obtain ⟨front, back, rfl, hlength, hfront⟩ := exists_lineComment 0 rest
  rw [h.text, h.cut_eq_lineComment hline, hlength, Nat.zero_add, List.take_left]
  exact hfront

end

/-- The kinds of the tokens of a source, in order, alternate between markup and code: an opening tag
comes before code and a closing tag before markup, so blank text and comments never come first. Markup
ends where the next tag opens and a line comment where one closes, so neither holds the tag; blank text
is one token. -/
theorem scan_alternates (source : String) :
    (scan source).tokens.toList.map Token.kind ∈ sources ∧
    (∀ t, (scan source).tokens.toList.head? = some t → t.isTrivia = false) ∧
    (∀ t ∈ (scan source).tokens, t.kind = .inlineHtml → ¬['<', '?'] <:+: t.text.toList) ∧
    (scan source).tokens.toList.IsChain (fun t u => ¬(t.kind = .whitespace ∧ u.kind = .whitespace)) ∧
    ∀ t ∈ (scan source).tokens, IsLineComment t → ¬['?', '>'] <:+: t.text.toList := by
  have hreads := scan_reads source
  have hcut (t : Token) (ht : t ∈ (scan source).tokens) :
      ∃ mode rest, IsCutOff t (scan source).diagnostics.toList mode rest := by
    obtain ⟨mode, -, rest, -, -, h⟩ := hreads.exists_isCutOff (Array.mem_toList_iff.2 ht)
    exact ⟨mode, rest, h⟩
  refine ⟨markupFollows_le _ hreads.kinds_mem, hreads.head_not_isTrivia, ?_,
    hreads.isChain_whitespace, ?_⟩
  · intro t ht hkind
    obtain ⟨mode, rest, h⟩ := hcut t ht
    exact h.not_infix_html hkind
  · intro t ht hline
    obtain ⟨mode, rest, h⟩ := hcut t ht
    exact h.not_infix_lineComment hline

end ArrayShapes.Scan
