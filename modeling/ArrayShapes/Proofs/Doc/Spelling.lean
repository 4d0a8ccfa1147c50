import Mathlib.Data.List.DropRight
import Mathlib.Logic.Function.Iterate
import ArrayShapes.Doc.Expression

/-!
Type expressions as they are written: tokens in the order of the grammar, with a gap in front of
each. White space and line comments may fill a gap only where the reader looks for them; there they
do not change what is read.
-/

namespace ArrayShapes

open Text

namespace Text

theorem dropWhite_cons {c : Char} (hc : isWhite c = false) (cs : List Char) :
    dropWhite (c :: cs) = c :: cs := by
  simp [dropWhite, hc]

theorem dropWhite_space (cs : List Char) : dropWhite (' ' :: cs) = dropWhite cs := rfl

theorem dropWhite_dropWhite (cs : List Char) : dropWhite (dropWhite cs) = dropWhite cs :=
  List.dropWhile_idempotent _ _

theorem dropWhite_append {gap : List Char} (hgap : ∀ c ∈ gap, isWhite c) (cs : List Char) :
    dropWhite (gap ++ cs) = dropWhite cs :=
  List.dropWhile_append_of_pos hgap

theorem dropWhite_gap {gap : List Char} (hgap : ∀ c ∈ gap, isWhite c) {c : Char}
    (hc : isWhite c = false) (cs : List Char) : dropWhite (gap ++ c :: cs) = c :: cs := by
  rw [dropWhite_append hgap, dropWhite_cons hc]

theorem length_dropWhite_le (cs : List Char) : (dropWhite cs).length ≤ cs.length :=
  (List.dropWhile_suffix isWhite).length_le

theorem length_lt_dropWhite {c : Char} (hc : isWhite c = false) (cs rest : List Char) :
    rest.length < (dropWhite (cs ++ c :: rest)).length := by
  induction cs with
  | nil => simp [dropWhite_cons hc]
  | cons d cs ih =>
      cases hd : isWhite d with
      | true => simpa [dropWhite, hd] using ih
      | false =>
          rw [List.cons_append, dropWhite_cons hd]
          simp only [List.length_cons, List.length_append]
          omega

end Text

namespace Doc.Expression

/-! ### Tokens and the grammar -/

/-- White space and line comments with their line ends. -/
inductive Trivia : List Char → Prop where
  | nil : Trivia []
  | white {c : Char} {cs : List Char} (hc : isWhite c) (hcs : Trivia cs) : Trivia (c :: cs)
  | comment {line cs : List Char} (hline : '\n' ∉ line) (hcs : Trivia cs) :
      Trivia ('/' :: '/' :: (line ++ '\n' :: cs))

/-- How the content of a quoted string is written between its quotes. -/
inductive Written (quote : Char) : List Char → List Char → Prop where
  | nil : Written quote [] []
  | plain {c : Char} {written content : List Char} (hquote : c ≠ quote) (hescape : c ≠ '\\')
      (hrest : Written quote written content) : Written quote (c :: written) (c :: content)
  | escaped {c : Char} {written content : List Char} (hrest : Written quote written content) :
      Written quote ('\\' :: c :: written) (c :: content)

/-- Tokens, by what they do in an expression. -/
inductive Lexeme where
  /-- A name, or a key without quotes. -/
  | word (text : List Char)
  | string (quote : Char) (written : List Char)
  /-- The question mark in front of a type. -/
  | nullable
  /-- The first brackets behind a type. -/
  | brackets
  /-- Brackets behind brackets. -/
  | moreBrackets
  /-- A character that stands for itself. -/
  | sign (c : Char)
deriving DecidableEq, Repr

def Lexeme.text : Lexeme → List Char
  | .word text => text
  | .string quote written => quote :: (written ++ [quote])
  | .nullable => ['?']
  | .brackets | .moreBrackets => ['[', ']']
  | .sign c => [c]

/-- What may stand in front of a token. Only types and keys may have a comment in front, and
brackets follow each other at once. -/
def Lexeme.Admits : Lexeme → List Char → Prop
  | .word _, gap | .string _ _, gap | .nullable, gap => Trivia gap
  | .brackets, gap | .sign _, gap => ∀ c ∈ gap, isWhite c
  | .moreBrackets, gap => gap = []

/-- Tokens with what stands in front of each. -/
inductive Layout : List Lexeme → List Char → Prop where
  | nil : Layout [] []
  | cons {t : Lexeme} {ts : List Lexeme} {gap cs : List Char} (hgap : t.Admits gap)
      (hcs : Layout ts cs) : Layout (t :: ts) (gap ++ (t.text ++ cs))

/-- The parts of an expression, with what they mean. -/
inductive Part where
  | base (s : Shape)
  | single (s : Shape)
  /-- Alternatives with a bar in front of each. -/
  | others (ss : List Shape)
  | multi (s : Shape)
  /-- Expressions with commas between them. -/
  | arguments (ss : List Shape)
  /-- Entries of a record. -/
  | entries (es : List (Shape × Shape))

/-- Brackets in a row. -/
def bracketRow : Nat → List Lexeme
  | 0 => []
  | n + 1 => .brackets :: List.replicate n .moreBrackets

inductive IsKey : Lexeme → String → Prop where
  | word {text : List Char} (hne : text ≠ []) (htext : ∀ c ∈ text, isKeyChar c) :
      IsKey (.word text) (String.ofList text)
  | string {quote : Char} {written content : List Char} (hquote : isQuote quote)
      (hwritten : Written quote written content) :
      IsKey (.string quote written) (String.ofList content)

/-- The grammar. A question mark takes in the brackets behind its operand, a key may have a question
mark, and the comma after the last entry may be left out. -/
inductive Derives : List Lexeme → Part → Prop where
  | name {name : String} (hname : name? name.toList = some (name, [])) :
      Derives [.word name.toList] (.base (.plain name))
  | string {quote : Char} {written content : List Char} (hquote : isQuote quote)
      (hwritten : Written quote written content) :
      Derives [.string quote written] (.base (.str (String.ofList content)))
  | named {name : String} {ts : List Lexeme} {ss : List Shape}
      (hname : name? name.toList = some (name, [])) (hs : Derives ts (.arguments ss)) :
      Derives (.word name.toList :: .sign '<' :: (ts ++ [.sign '>'])) (.base (.ofName name ss))
  | record {ts : List Lexeme} {es : List (Shape × Shape)} (hs : Derives ts (.entries es)) :
      Derives (.word "array".toList :: .sign '{' :: (ts ++ [.sign '}']))
        (.base (.ofEntries es none))
  | single {ts : List Lexeme} {s : Shape} (n : Nat) (hs : Derives ts (.base s)) :
      Derives (ts ++ bracketRow n) (.single (Shape.list^[n] s))
  | nullable {ts : List Lexeme} {s : Shape} (hs : Derives ts (.single s)) :
      Derives (.nullable :: ts) (.single (.union [s, .plain "null"]))
  | last : Derives [] (.others [])
  | other {ts us : List Lexeme} {s : Shape} {ss : List Shape} (hs : Derives ts (.single s))
      (hss : Derives us (.others ss)) : Derives (.sign '|' :: (ts ++ us)) (.others (s :: ss))
  | multi {ts us : List Lexeme} {s : Shape} {ss : List Shape} (hs : Derives ts (.single s))
      (hss : Derives us (.others ss)) : Derives (ts ++ us) (.multi (.oneOf (s :: ss)))
  | argument {ts : List Lexeme} {s : Shape} (hs : Derives ts (.multi s)) :
      Derives ts (.arguments [s])
  | arguments {ts us : List Lexeme} {s : Shape} {ss : List Shape} (hs : Derives ts (.multi s))
      (hss : Derives us (.arguments ss)) :
      Derives (ts ++ .sign ',' :: us) (.arguments (s :: ss))
  | empty : Derives [] (.entries [])
  | entry {t : Lexeme} {mark ts : List Lexeme} {key : String} {s : Shape} (hkey : IsKey t key)
      (hmark : mark = [] ∨ mark = [.sign '?']) (hs : Derives ts (.multi s)) :
      Derives (t :: (mark ++ .sign ':' :: ts)) (.entries [(.str key, s)])
  | entries {t : Lexeme} {mark ts us : List Lexeme} {key : String} {s : Shape}
      {es : List (Shape × Shape)} (hkey : IsKey t key) (hmark : mark = [] ∨ mark = [.sign '?'])
      (hs : Derives ts (.multi s)) (hes : Derives us (.entries es)) :
      Derives (t :: (mark ++ .sign ':' :: (ts ++ .sign ',' :: us))) (.entries ((.str key, s) :: es))

/-! ### Layouts -/

theorem Layout.append {ts us : List Lexeme} {xs ys : List Char} (hxs : Layout ts xs)
    (hys : Layout us ys) : Layout (ts ++ us) (xs ++ ys) := by
  induction hxs with
  | nil => exact hys
  | cons hgap _ ih =>
      rw [List.append_assoc, List.append_assoc]
      exact ih.cons hgap

theorem Layout.exists_of_append {ts us : List Lexeme} {cs : List Char}
    (hcs : Layout (ts ++ us) cs) :
    ∃ xs ys, cs = xs ++ ys ∧ Layout ts xs ∧ Layout us ys := by
  induction ts generalizing cs with
  | nil => exact ⟨[], cs, rfl, .nil, hcs⟩
  | cons t ts ih =>
      cases hcs with
      | cons hgap hcs =>
          obtain ⟨xs, ys, rfl, hxs, hys⟩ := ih hcs
          exact ⟨_, ys, by simp, hxs.cons hgap, hys⟩

theorem Layout.exists_of_sign {c : Char} {ts : List Lexeme} {cs : List Char}
    (hcs : Layout (.sign c :: ts) cs) :
    ∃ gap ys, cs = gap ++ c :: ys ∧ (∀ d ∈ gap, isWhite d) ∧ Layout ts ys := by
  cases hcs with
  | cons hgap hcs => exact ⟨_, _, rfl, hgap, hcs⟩

/-- Brackets in a row are written without gaps between them. -/
theorem Layout.exists_of_bracketRow {n : Nat} {cs : List Char} (hcs : Layout (bracketRow n) cs) :
    ∃ gap, (∀ c ∈ gap, isWhite c) ∧ cs = gap ++ (List.replicate n ['[', ']']).flatten ∧
      (n = 0 → gap = []) := by
  have hmore : ∀ {n cs}, Layout (List.replicate n .moreBrackets) cs →
      cs = (List.replicate n ['[', ']']).flatten := by
    intro n
    induction n with
    | zero =>
        intro cs hcs
        cases hcs
        rfl
    | succ n ih =>
        intro cs hcs
        cases hcs with
        | cons hgap hcs =>
            obtain rfl : _ = [] := hgap
            rw [ih hcs]
            rfl
  cases n with
  | zero =>
      cases hcs
      exact ⟨[], by simp⟩
  | succ n =>
      cases hcs with
      | cons hgap hcs => exact ⟨_, hgap, by rw [hmore hcs]; rfl, by simp⟩

/-! ### Where a part begins -/

theorem ne_of_isQuote {quote c : Char} (hquote : isQuote quote) (hc : isQuote c = false) :
    quote ≠ c := by
  rintro rfl
  simp [hc] at hquote

def isOpening (c : Char) : Bool := isQuote c || isNameChar c || c == '?'

/-- Text that begins as types and keys do. -/
def Opens (cs : List Char) : Prop := ∃ c ∈ cs.head?, isOpening c

theorem isWhite_of_isOpening {c : Char} (hc : isOpening c) : isWhite c = false := by
  simp only [isOpening, isQuote, isNameChar, isAsciiAlphanumeric, isAsciiLetter, isAsciiDigit,
    Char.le_def, UInt32.le_iff_toNat_le, Bool.or_eq_true, Bool.and_eq_true, beq_iff_eq,
    decide_eq_true_eq] at hc
  have hrange : 33 ≤ c.toNat ∧ c.toNat ≤ 122 := by
    rcases hc with ((rfl | rfl) | (((hc | hc) | hc) | rfl) | rfl) | rfl
    all_goals simp_all
    all_goals omega
  simp only [isWhite, Bool.or_eq_false_iff, Bool.and_eq_false_iff, decide_eq_false_iff_not,
    beq_eq_false_iff_ne]
  omega

theorem Opens.append {cs : List Char} (hcs : Opens cs) (r : List Char) : Opens (cs ++ r) := by
  obtain ⟨c, hc, hopen⟩ := hcs
  cases cs with
  | nil => simp at hc
  | cons d cs => exact ⟨c, hc, hopen⟩

theorem Opens.dropWhite_eq {cs : List Char} (hcs : Opens cs) : dropWhite cs = cs := by
  obtain ⟨c, hc, hopen⟩ := hcs
  cases cs with
  | nil => rfl
  | cons d cs =>
      cases hc
      exact dropWhite_cons (isWhite_of_isOpening hopen) cs

theorem skipTrivia_dropWhite (cs : List Char) : skipTrivia (dropWhite cs) = skipTrivia cs := by
  rw [skipTrivia, skipTrivia]
  split <;> split
  all_goals grind [dropWhite_dropWhite]

theorem skipTrivia_cons {c : Char} (hwhite : isWhite c = false) (hslash : c ≠ '/')
    (cs : List Char) : skipTrivia (c :: cs) = c :: cs := by
  rw [skipTrivia]
  split
  next heq =>
    rw [dropWhite_cons hwhite] at heq
    simp_all
  next => exact dropWhite_cons hwhite cs

theorem skipTrivia_comment {line : List Char} (hline : '\n' ∉ line) (cs : List Char) :
    skipTrivia ('/' :: '/' :: (line ++ '\n' :: cs)) = skipTrivia cs := by
  have hslash : dropWhite ('/' :: '/' :: (line ++ '\n' :: cs)) =
      '/' :: '/' :: (line ++ '\n' :: cs) := dropWhite_cons rfl _
  have hdrop : (line ++ '\n' :: cs).dropWhile (· != '\n') = '\n' :: cs := by
    rw [List.dropWhile_append_of_pos (by grind), List.dropWhile_cons_of_neg (by simp)]
  rw [skipTrivia]
  split
  next rest heq =>
    obtain rfl : _ = rest := by simpa [hslash] using heq
    simp [hdrop]
  next hne => exact absurd hslash (hne _)

theorem Trivia.skipTrivia_append {gap : List Char} (hgap : Trivia gap) (cs : List Char) :
    skipTrivia (gap ++ cs) = skipTrivia cs := by
  induction hgap with
  | nil => rfl
  | @white c gap hc _ ih =>
      have hdrop : dropWhite (c :: (gap ++ cs)) = dropWhite (gap ++ cs) := by simp [dropWhite, hc]
      rw [List.cons_append, ← skipTrivia_dropWhite, hdrop, skipTrivia_dropWhite, ih]
  | @comment line gap hline _ ih =>
      rw [List.cons_append, List.cons_append, List.append_assoc, List.cons_append,
        skipTrivia_comment hline, ih]

theorem Opens.skipTrivia_eq {cs : List Char} (hcs : Opens cs) : skipTrivia cs = cs := by
  obtain ⟨c, hc, hopen⟩ := hcs
  cases cs with
  | nil => simp at hc
  | cons d cs =>
      cases hc
      apply skipTrivia_cons (isWhite_of_isOpening hopen)
      rintro rfl
      exact absurd hopen (by decide)

end Doc.Expression

end ArrayShapes
