import Mathlib.Logic.ExistsUnique
import ArrayShapes.Proofs.Syntax.Sketch

/-!
What the table of binary operators prescribes. A sequence of operands with operators between them is
to be read as one tree: an operator of less power stands above those of more, and of equal ones the
last stands on top, or the first where they associate to the right. Every sequence has exactly one
such tree.
-/

namespace ArrayShapes.Syntax

open ArrayShapes.Syntax.Grammar

/-! ### Operators of the table -/

/-- Kinds of phrases that operators between two operands make. -/
def PhraseKind.isOperation : PhraseKind → Bool
  | .coalesceExpression | .logicalExpression | .bitwiseExpression | .equalityExpression
  | .relationalExpression | .additiveExpression | .shiftExpression | .multiplicativeExpression
  | .instanceOfExpression => true
  | _ => false

namespace Grammar.Operator

/-- The least power of an operation that is the operand on the left. -/
def leftLeast (op : Operator) : Nat := if op.rightAssociative then op.power + 1 else op.power

/-- The least power of an operation that is the operand on the right. -/
def rightLeast (op : Operator) : Nat := if op.rightAssociative then op.power else op.power + 1

theorem power_le_leftLeast (op : Operator) : op.power ≤ op.leftLeast := by
  rw [leftLeast]
  split <;> omega

theorem power_le_rightLeast (op : Operator) : op.power ≤ op.rightLeast := by
  rw [rightLeast]
  split <;> omega

end Grammar.Operator

namespace Sketch

/-- The operator that a token is. -/
def operator? : Sketch → Option Operator
  | .token kind text =>
    if kind = .name ∧ Text.lower text = "instanceof" then some ⟨13, .instanceOfExpression, false⟩
    else operatorOf? kind
  | .phrase .. => none

/-- An operator of the table with its two operands. -/
def operation? : Sketch → Option (Sketch × Operator × Sketch)
  | .phrase kind [l, o, r] =>
    o.operator?.bind fun op => if op.kind = kind then some (l, op, r) else none
  | _ => none

/-! ### What is prescribed -/

/-- If this is an operation, then of no less power. -/
def Binds (least : Nat) (s : Sketch) : Prop :=
  ∀ l op r, s.operation? = some (l, op, r) → least ≤ op.power

/-- Neither an operator nor made by one. -/
structure IsAtom (s : Sketch) : Prop where
  operation : s.operation? = none
  operator : s.operator? = none

/-- Operands with operators between them. -/
inductive IsSequence : List Sketch → Prop where
  | operand {s : Sketch} (hs : s.IsAtom) : IsSequence [s]
  | operator {s o : Sketch} {op : Operator} {ys : List Sketch} (hs : s.IsAtom)
      (ho : o.operator? = some op) (hys : IsSequence ys) : IsSequence (s :: o :: ys)

/-- The tree of a sequence, as the table has it. -/
inductive Prescribed : Sketch → List Sketch → Prop where
  | operand {s : Sketch} (hs : s.IsAtom) : Prescribed s [s]
  | operation {o l r : Sketch} {op : Operator} {xs ys : List Sketch} (ho : o.operator? = some op)
      (hl : Prescribed l xs) (hr : Prescribed r ys) (left : l.Binds op.leftLeast)
      (right : r.Binds op.rightLeast) : Prescribed (.phrase op.kind [l, o, r]) (xs ++ o :: ys)

variable {s t l o r : Sketch} {op q : Operator} {items xs ys : List Sketch}

/-! ### Reading operations -/

/-- What the table says of its operators: the power tells whether they associate to the right. -/
theorem operator?_spec (h : o.operator? = some op) :
    (op.rightAssociative = true ↔ op.power = 1) ∧ op.kind.isOperation = true := by
  cases o with
  | phrase => cases h
  | token kind text =>
      rw [operator?] at h
      split at h
      · cases h
        decide
      · cases kind <;> cases h <;> decide

/-- Of two operators in a row, the second has the first on its left if and only if the first does not
have the second on its right. -/
theorem leftLeast_le_iff (ho : o.operator? = some op) (hs : s.operator? = some q) :
    op.leftLeast ≤ q.power ↔ op.power < q.rightLeast := by
  have hop := (operator?_spec ho).1
  have hq := (operator?_spec hs).1
  rw [Operator.leftLeast, Operator.rightLeast]
  cases hright : op.rightAssociative <;> cases hright' : q.rightAssociative <;>
    simp [hright, hright'] at * <;> omega

theorem operation?_phrase (ho : o.operator? = some op) :
    operation? (.phrase op.kind [l, o, r]) = some (l, op, r) := by
  simp [operation?, ho]

theorem exists_of_operation? (h : s.operation? = some (l, op, r)) :
    ∃ o, s = .phrase op.kind [l, o, r] ∧ o.operator? = some op := by
  unfold operation? at h
  split at h
  · rename_i kind l' o r'
    obtain ⟨op', ho, hop⟩ := Option.bind_eq_some_iff.1 h
    split at hop
    · rename_i hkind
      cases hop
      exact ⟨o, by rw [hkind], ho⟩
    · cases hop
  · cases h

theorem operation?_eq_none {kind : PhraseKind} {cs : List Sketch} (h : kind.isOperation = false) :
    operation? (.phrase kind cs) = none := by
  rw [Option.eq_none_iff_forall_ne_some]
  rintro ⟨l, op, r⟩ hop
  obtain ⟨o, hphrase, ho⟩ := exists_of_operation? hop
  cases hphrase
  simp [(operator?_spec ho).2] at h

theorem IsAtom.binds (h : s.IsAtom) (least : Nat) : s.Binds least := by
  intro l op r hop
  cases h.operation.symm.trans hop

theorem binds_phrase {least : Nat} (ho : o.operator? = some op) :
    Binds least (.phrase op.kind [l, o, r]) ↔ least ≤ op.power := by
  constructor
  · intro h
    exact h l op r (operation?_phrase ho)
  · intro hle l' op' r' hop
    cases (operation?_phrase ho).symm.trans hop
    exact hle

theorem Binds.mono {least least' : Nat} (h : s.Binds least) (hle : least' ≤ least) :
    s.Binds least' :=
  fun l op r hop => Nat.le_trans hle (h l op r hop)

/-- The sides of a prescribed operation. -/
theorem Prescribed.sides (h : s.Prescribed items) (hop : s.operation? = some (l, op, r)) :
    l.Binds op.leftLeast ∧ r.Binds op.rightLeast := by
  cases h with
  | operand hs => cases hs.operation.symm.trans hop
  | operation ho hl hr left right =>
      cases (operation?_phrase ho).symm.trans hop
      exact ⟨left, right⟩

/-- No operator in the tree has less power than the one on top. -/
theorem Prescribed.le_power {least : Nat} (h : s.Prescribed items) (hbinds : s.Binds least)
    (hmem : o ∈ items) (ho : o.operator? = some op) : least ≤ op.power := by
  induction h generalizing least with
  | operand hs =>
      cases List.mem_singleton.1 hmem
      cases hs.operator.symm.trans ho
  | @operation o' l r q xs ys ho' hl hr left right ihl ihr =>
      have hle : least ≤ q.power := (binds_phrase ho').1 hbinds
      rcases List.mem_append.1 hmem with hmem | hmem
      · exact ihl (left.mono (Nat.le_trans hle q.power_le_leftLeast)) hmem
      · rcases List.mem_cons.1 hmem with rfl | hmem
        · cases ho'.symm.trans ho
          exact hle
        · exact ihr (right.mono (Nat.le_trans hle q.power_le_rightLeast)) hmem

/-! ### There is one -/

/-- One more operand in front goes down on the left as far as its operator has more power. -/
theorem Prescribed.exists_cons (h : t.Prescribed ys) (hs : s.IsAtom) (ho : o.operator? = some op) :
    ∃ u, Prescribed u (s :: o :: ys) ∧ ∀ least, least ≤ op.power → t.Binds least → u.Binds least := by
  induction h with
  | operand ht =>
      refine ⟨_, .operation ho (.operand hs) (.operand ht) (hs.binds _) (ht.binds _), ?_⟩
      exact fun least hle _ => (binds_phrase ho).2 hle
  | @operation o' l r q xs ys ho' hl hr left right ihl ihr =>
      by_cases hpower : op.rightLeast ≤ q.power
      · refine ⟨_, .operation ho (.operand hs) (.operation ho' hl hr left right) (hs.binds _)
          ((binds_phrase ho').2 hpower), ?_⟩
        exact fun least hle _ => (binds_phrase ho).2 hle
      · have hle : q.leftLeast ≤ op.power :=
          (leftLeast_le_iff ho' ho).2 (Nat.lt_of_not_le hpower)
        obtain ⟨u, hu, hbinds⟩ := ihl
        refine ⟨_, .operation ho' hu hr (hbinds _ hle left) right, ?_⟩
        intro least _ ht
        exact (binds_phrase ho').2 ((binds_phrase ho').1 ht)

theorem IsSequence.exists_prescribed (h : IsSequence items) : ∃ s, Prescribed s items := by
  induction h with
  | operand hs => exact ⟨_, .operand hs⟩
  | operator hs ho _ ih =>
      obtain ⟨t, ht⟩ := ih
      obtain ⟨u, hu, -⟩ := ht.exists_cons hs ho
      exact ⟨u, hu⟩

/-! ### There is only one -/

/-- Two operators in a row are not each on a side of the other. -/
theorem not_both_on_top {o' : Sketch} {op' : Operator} (ho : o.operator? = some op)
    (ho' : o'.operator? = some op') (hright : op.rightLeast ≤ op'.power) :
    ¬op'.leftLeast ≤ op.power := by
  rw [leftLeast_le_iff ho' ho]
  exact Nat.not_lt.2 hright

theorem Prescribed.ne_nil (h : s.Prescribed items) : items ≠ [] := by
  cases h <;> simp

theorem Prescribed.length_ne_one (hl : l.Prescribed xs) (o : Sketch) (ys : List Sketch)
    (hr : r.Prescribed ys) : (xs ++ o :: ys).length ≠ 1 := by
  have := List.length_pos_iff.2 hl.ne_nil
  have := List.length_pos_iff.2 hr.ne_nil
  simp
  omega

theorem Prescribed.unique (h : s.Prescribed items) (h' : t.Prescribed items) : s = t := by
  induction h generalizing t with
  | operand hs =>
      generalize hitems : [_] = items at h'
      cases h' with
      | operand => exact List.singleton_inj.1 hitems
      | operation _ hl hr => exact absurd (congrArg List.length hitems).symm (hl.length_ne_one _ _ hr)
  | @operation o l r op xs ys ho hl hr left right ihl ihr =>
      generalize hitems : xs ++ o :: ys = items at h'
      cases h' with
      | operand => exact absurd (congrArg List.length hitems) (hl.length_ne_one _ _ hr)
      | @operation o' l' r' op' xs' ys' ho' hl' hr' left' right' =>
          -- the operators on top are at the same place, or one of them is on a side of the other
          rcases List.append_eq_append_iff.1 hitems with ⟨as, rfl, has⟩ | ⟨as, rfl, has⟩
          · cases as with
            | nil =>
                obtain ⟨rfl, rfl⟩ := List.cons.inj has
                cases ho.symm.trans ho'
                rw [List.append_nil] at hl'
                rw [ihl hl', ihr hr']
            | cons a as =>
                obtain ⟨rfl, rfl⟩ := List.cons.inj has
                exact (not_both_on_top ho ho' (hr.le_power right (by simp) ho')
                  (hl'.le_power left' (by simp) ho)).elim
          · cases as with
            | nil =>
                obtain ⟨rfl, rfl⟩ := List.cons.inj has
                cases ho.symm.trans ho'
                rw [List.append_nil] at ihl
                rw [ihl hl', ihr hr']
            | cons a as =>
                obtain ⟨rfl, rfl⟩ := List.cons.inj has
                exact (not_both_on_top ho' ho (hr'.le_power right' (by simp) ho)
                  (hl.le_power left (by simp) ho')).elim

theorem IsSequence.existsUnique_prescribed (h : IsSequence items) : ∃! s, Prescribed s items := by
  obtain ⟨s, hs⟩ := h.exists_prescribed
  exact ⟨s, hs, fun t ht => ht.unique hs⟩

end Sketch

end ArrayShapes.Syntax
