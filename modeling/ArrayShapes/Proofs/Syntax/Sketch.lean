import ArrayShapes.Proofs.Syntax.Walk
import ArrayShapes.Syntax.Grammar.Expression

/-!
Sketches: what is left of a tree without blank text, comments, positions and numbers. A sketch tells
how a phrase is made up, so the patterns that the children of a phrase follow are stated on them.
-/

namespace ArrayShapes.Syntax

inductive Sketch where
  | token (kind : TokenKind) (text : String)
  | phrase (kind : PhraseKind) (children : List Sketch)

namespace Tree

mutual

def sketch : Tree → Sketch
  | .token _ t => .token t.kind t.text
  | .phrase _ kind _ _ cs => .phrase kind (sketchList cs)

def sketchList : List Tree → List Sketch
  | [] => []
  | t :: ts => if t.isTrivia then sketchList ts else t.sketch :: sketchList ts

end

theorem sketchList_eq (ts : List Tree) :
    sketchList ts = (ts.filter (!·.isTrivia)).map sketch := by
  induction ts with
  | nil => rfl
  | cons t ts ih => by_cases h : t.isTrivia <;> simp [sketchList, h, ih]

@[simp]
theorem sketchList_append (ts us : List Tree) :
    sketchList (ts ++ us) = sketchList ts ++ sketchList us := by
  simp [sketchList_eq]

theorem sketch_phrase (id : Nat) (kind : PhraseKind) (pos stop : Nat) (cs : List Tree) :
    sketch (.phrase id kind pos stop cs) = .phrase kind (sketchList cs) := by
  simp [sketch]

end Tree

/-! ### Patterns -/

namespace Sketch

/-- Phrases, and tokens that are whole expressions. -/
def isOperand : Sketch → Bool
  | .token kind _ => kind.isLiteral
  | .phrase .. => true

def isTokenIn (kinds : List TokenKind) : Sketch → Bool
  | .token kind _ => kinds.contains kind
  | .phrase .. => false

/-- Whether this is an operator that makes phrases of the given kind. Some operators are words. -/
def isOperator (kind : PhraseKind) : Sketch → Bool
  | .token .name text =>
    (kind == .instanceOfExpression && Text.lower text == "instanceof") ||
      (kind == .logicalExpression && ["and", "or", "xor"].contains (Text.lower text))
  | .token k _ => (Grammar.operatorOf? k).any (·.kind == kind)
  | .phrase .. => false

end Sketch

/-- A place for a child, which has to be filled or not. -/
inductive Slot where
  | one (test : Sketch → Bool)
  | optional (test : Sketch → Bool)

namespace Slot

/-- Whether the children fill the places in order. -/
def filledBy : List Slot → List Sketch → Bool
  | [], cs => cs.isEmpty
  | .one _ :: _, [] => false
  | .one test :: slots, c :: cs => test c && filledBy slots cs
  | .optional _ :: slots, [] => filledBy slots []
  | .optional test :: slots, c :: cs => filledBy slots (c :: cs) || (test c && filledBy slots cs)

variable {slots more : List Slot} {test : Sketch → Bool} {cs ds : List Sketch}

theorem filledBy_of_tail (h : filledBy slots cs = true) :
    filledBy (.optional test :: slots) cs = true := by
  cases cs with
  | nil => exact h
  | cons c cs => simp [filledBy, h]

theorem exists_eq_singleton_of_filledBy_one (h : filledBy [.one test] cs = true) :
    ∃ o, cs = [o] ∧ test o = true := by
  cases cs with
  | nil => cases h
  | cons o rest =>
      simp only [filledBy, Bool.and_eq_true, List.isEmpty_iff] at h
      obtain ⟨ho, rfl⟩ := h
      exact ⟨o, rfl, ho⟩

theorem filledBy_of_one (h : filledBy (.one test :: slots) cs = true) :
    filledBy (.optional test :: slots) cs = true := by
  cases cs with
  | nil => cases h
  | cons c cs =>
      simp only [filledBy] at h ⊢
      exact Bool.or_eq_true_iff.2 (.inr h)

theorem filledBy_mono {test' : Sketch → Bool} (htest : ∀ c, test c = true → test' c = true)
    (h : filledBy (.optional test :: slots) cs = true) :
    filledBy (.optional test' :: slots) cs = true := by
  cases cs with
  | nil => exact h
  | cons c cs =>
      simp only [filledBy, Bool.or_eq_true, Bool.and_eq_true] at h ⊢
      exact h.imp_right fun ⟨hc, hcs⟩ => ⟨htest c hc, hcs⟩

theorem filledBy_append (h : filledBy slots cs = true) (h' : filledBy more ds = true) :
    filledBy (slots ++ more) (cs ++ ds) = true := by
  fun_induction filledBy slots cs with
  | case1 cs =>
      cases List.isEmpty_iff.1 h
      exact h'
  | case2 => cases h
  | case3 test slots c cs ih =>
      obtain ⟨hc, hcs⟩ := Bool.and_eq_true_iff.1 h
      simp [filledBy, hc, ih hcs]
  | case4 test slots ih => exact filledBy_of_tail (ih h)
  | case5 test slots c cs ih ih' =>
      rcases Bool.or_eq_true_iff.1 h with htail | hfirst
      · exact filledBy_of_tail (ih htail)
      · obtain ⟨hc, hcs⟩ := Bool.and_eq_true_iff.1 hfirst
        simp [filledBy, hc, ih' hcs]

end Slot

namespace PhraseKind

open Sketch

/-- What the children of a phrase are, where those who look for them count on it. -/
def slots? (kind : PhraseKind) : Option (List Slot) :=
  match kind with
  | .subscriptExpression =>
    some [.one isOperand, .one (isTokenIn [.openBracket]), .optional isOperand,
      .optional (isTokenIn [.closeBracket])]
  | .simpleAssignmentExpression =>
    some [.one isOperand, .one (isTokenIn [.equals]), .optional (isTokenIn [.ampersand]),
      .one isOperand]
  | .arrayKey | .foreachCollection => some [.one isOperand]
  | .arrayValue => some [.optional (isTokenIn [.ellipsis, .ampersand]), .one isOperand]
  | .foreachKey | .foreachValue => some [.optional (isTokenIn [.ampersand]), .one isOperand]
  | .coalesceExpression | .logicalExpression | .bitwiseExpression | .equalityExpression
  | .relationalExpression | .additiveExpression | .shiftExpression | .multiplicativeExpression
  | .instanceOfExpression => some [.one isOperand, .one (isOperator kind), .one isOperand]
  | _ => none

/-- Whether a phrase of this kind may have these children. -/
def allows (kind : PhraseKind) (children : List Sketch) : Bool :=
  kind.slots?.all (Slot.filledBy · children)

theorem allows_of_slots?_eq_none {kind : PhraseKind} (h : kind.slots? = none)
    (children : List Sketch) : kind.allows children = true := by
  simp [allows, h]

theorem allows_of_slots?_eq_some {kind : PhraseKind} {slots : List Slot} {children : List Sketch}
    (h : kind.slots? = some slots) (hfilled : Slot.filledBy slots children = true) :
    kind.allows children = true := by
  simp [allows, h, hfilled]

end PhraseKind

end ArrayShapes.Syntax
