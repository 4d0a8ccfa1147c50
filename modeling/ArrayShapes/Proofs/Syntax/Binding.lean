import ArrayShapes.Proofs.Syntax.Hereditary.Statement
import ArrayShapes.Proofs.Syntax.Operands

/-!
Operators bind as the table prescribes. The loop over binary operators holds one operand at a time.
The operators that may follow it are those that could not have gone into its right side, so they are
loose enough to take it as their left side.
-/

namespace ArrayShapes.Syntax

open ArrayShapes.Syntax.Parser ArrayShapes.Syntax.Grammar Builder

/-! ### Nodes as prescribed -/

theorem Sketch.isAtom_of_isOperand {s : Sketch} (h : s.isOperand = true)
    (hnone : s.operation? = none) : s.IsAtom := by
  refine ⟨hnone, ?_⟩
  cases s with
  | phrase => rfl
  | token kind text =>
      cases kind <;> simp [isOperand, TokenKind.isLiteral] at h <;> rfl

namespace Tree

/-- An operand is the tree that the table has for some sequence. -/
def IsPrescribed (t : Tree) : Prop := t.sketch.isOperand = true → ∃ items, t.sketch.Prescribed items

def AllPrescribed (t : Tree) : Prop := ∀ u ∈ t.preorder, u.IsPrescribed

theorem AllPrescribed.isPrescribed {t : Tree} (h : t.AllPrescribed) : t.IsPrescribed :=
  h t (by rw [preorder_eq]; exact List.mem_cons_self)

theorem allPrescribed_phrase {kind : PhraseKind} {cs : List Tree} {items : List Sketch}
    (id pos stop : Nat) (h : Sketch.Prescribed (.phrase kind (sketchList cs)) items)
    (hcs : ∀ c ∈ cs, c.AllPrescribed) : AllPrescribed (.phrase id kind pos stop cs) := by
  refine forall_preorder_phrase (fun _ => ?_) hcs
  rw [sketch_phrase]
  exact ⟨items, h⟩

theorem hereditary_allPrescribed : Hereditary AllPrescribed where
  token id t := by
    intro u hu hoperand
    rw [preorder_eq] at hu
    obtain rfl := List.mem_singleton.1 hu
    exact ⟨_, .operand (Sketch.isAtom_of_isOperand hoperand rfl)⟩
  phrase id pos stop hkind hcs :=
    allPrescribed_phrase id pos stop
      (.operand ⟨Sketch.operation?_eq_none (PhraseKind.isOperation_of_isOrdinary hkind), rfl⟩) hcs
  naming id pos stop _ hcs :=
    allPrescribed_phrase id pos stop (.operand ⟨Sketch.operation?_eq_none rfl, rfl⟩) hcs

theorem Simple.operation?_eq_none {ok : Tree → Prop} {t : Tree} (h : Simple ok t) :
    t.sketch.operation? = none := by
  cases t with
  | token id t => rfl
  | phrase id kind pos stop cs =>
      rw [sketch_phrase]
      exact Sketch.operation?_eq_none (h.kind kind rfl)

theorem sketchList_taken {L blanks : List Tree} {l : Lexeme} (hl : l.Tidy)
    (hblanks : ∀ x ∈ blanks, x.isTrivia = true) (id : Nat) :
    sketchList (L ++ (blanks ++ [.token id l.token])) =
      sketchList L ++ [.token l.token.kind l.token.text] := by
  have hnil : sketchList blanks = [] := by simpa [sketchList_eq] using hblanks
  have htoken : Tree.isTrivia (.token id l.token) = false := hl.token
  simp [hnil, sketchList, htoken, sketch]

end Tree

/-! ### Tokens ahead -/

/-- The operator ahead is the one that the next token is. -/
theorem operator?_of_ahead {b : Builder} {l : Lexeme} {rest : List Lexeme} (hahead : b.ahead = l :: rest)
    (hl : l.Tidy) : (Sketch.token l.token.kind l.token.text).operator? = operatorAhead? b := by
  have hkind : b.kind? = some l.token.kind := by simp [kind?, hahead]
  have hword : b.isKeyword "instanceof" = true ↔
      l.token.kind = .name ∧ Text.lower l.token.text = "instanceof" := by
    rw [isKeyword, beq_iff_eq, word?, hahead, List.head?_cons, Option.bind_some, hl.word]
    split <;> simp_all
  rw [Sketch.operator?, operatorAhead?, hkind, Option.bind_some]
  by_cases h : b.isKeyword "instanceof" = true
  · rw [if_pos (hword.1 h), if_pos h]
  · rw [if_neg (mt hword.2 h), if_neg h]

theorem operatorAhead?_eq_none {b : Builder} (hahead : b.ahead = []) : operatorAhead? b = none := by
  simp [operatorAhead?, isKeyword, word?, kind?, hahead]

/-- The words between assignments are no operators of the table. -/
theorem operator?_of_isAnyKeyword {b : Builder} {l : Lexeme} {rest : List Lexeme}
    (hahead : b.ahead = l :: rest) (hl : l.Tidy)
    (hword : b.isAnyKeyword ["and", "or", "xor"] = true) :
    (Sketch.token l.token.kind l.token.text).operator? = none := by
  rw [isAnyKeyword, word?, hahead, List.head?_cons, Option.bind_some, hl.word] at hword
  split at hword
  · rename_i hname
    rw [Sketch.operator?, hname, if_neg]
    · rfl
    · rintro ⟨-, htext⟩
      simp [htext] at hword
  · cases hword

/-! ### One operand -/

namespace Grammar

variable {rules : Rules} {least : Nat} {op : Operator}

/-- Behind the mark stands one operand as prescribed, and `C` holds of it. -/
def Holds (C : Sketch → Builder → Prop) : Assertion := fun L b =>
  (∀ x ∈ L, x.AllPrescribed) ∧
    ∃ s items, Tree.sketchList L = [s] ∧ s.Prescribed items ∧ C s b

/-- An operator ahead has less power than `least`. -/
def Stops (least : Nat) (b : Builder) : Prop := ∀ q, operatorAhead? b = some q → q.power < least

/-- The operand binds, and an operator ahead cannot go into its right side. -/
def Tight (least : Nat) (s : Sketch) (b : Builder) : Prop :=
  s.Binds least ∧ ∀ l op r, s.operation? = some (l, op, r) → Stops op.rightLeast b

/-- What is left of an expression with operators of at least this power. -/
def Reads (least : Nat) : Assertion := Holds fun s b => s.Binds least ∧ Stops least b

/-- An operand as prescribed and an operator that may take it as its left side. -/
def Takes (op : Operator) : Assertion := fun L _ =>
  (∀ x ∈ L, x.AllPrescribed) ∧ ∃ s items o, Tree.sketchList L = [s, o] ∧ s.Prescribed items ∧
    s.Binds op.leftLeast ∧ o.operator? = some op

/-- An operator with both sides. -/
def Joins (op : Operator) : Assertion := fun L b =>
  (∀ x ∈ L, x.AllPrescribed) ∧ Stops op.rightLeast b ∧
    ∃ l o r items, Tree.sketchList L = [l, o, r] ∧ o.operator? = some op ∧
      Sketch.Prescribed (.phrase op.kind [l, o, r]) items

theorem holds_retains {C : Sketch → Builder → Prop} {p : Parser Unit}
    (h : Meets (fun L _ => L = []) (fun _ => p) fun _ => Holds C) :
    Retains Tree.AllPrescribed fun _ => p := by
  apply Meets.on_top
  intro L b hL
  apply h.imp
  · exact fun _ _ hnil => hnil.1
  · exact fun _ L' b' hL' => allOf_append hL hL'.1

/-! ### The loop -/

theorem advance_takes :
    Meets (fun L b => Holds (Tight least) L b ∧ operatorAhead? b = some op)
      (fun _ => advance) fun _ => Takes op := by
  apply Meets.advance
  · rintro L b l rest blanks id ⟨⟨hL, s, items, hs, hitems, -, htight⟩, hop⟩ hahead hblanks hl
    have ho := (operator?_of_ahead hahead hl).trans hop
    refine ⟨?_, s, items, .token l.token.kind l.token.text, ?_, hitems, ?_, ho⟩
    · exact allOf_taken (b := b) Tree.hereditary_allPrescribed.token hL hblanks id l.token
    · rw [Tree.sketchList_taken hl hblanks, hs]
      rfl
    · intro l' q r' hq
      obtain ⟨o', -, ho'⟩ := Sketch.exists_of_operation? hq
      exact (Sketch.leftLeast_le_iff ho ho').2 (htight l' q r' hq op hop)
  · rintro L b ⟨-, hop⟩ hahead
    cases (operatorAhead?_eq_none hahead).symm.trans hop

theorem right_joins (hbinary : Meets (fun L _ => L = [])
      (fun _ => rules (.binary op.rightLeast)) fun _ => Reads op.rightLeast) :
    Meets (Takes op) (fun _ => rules (.binary op.rightLeast)) fun _ => Joins op := by
  apply Meets.on_top
  rintro L b ⟨hL, l, xs, o, hl, hxs, hleft, ho⟩
  apply hbinary.imp
  · exact fun _ _ hnil => hnil.1
  · rintro _ L' b' ⟨hL', r, ys, hr, hys, hright, hstops⟩
    refine ⟨allOf_append (b := b) hL hL', hstops, l, o, r, xs ++ o :: ys, ?_, ho, ?_⟩
    · rw [Tree.sketchList_append, hl, hr]
      rfl
    · exact .operation ho hxs hys hleft hright

theorem finish_holds (hle : least ≤ op.power) :
    Meets (Joins op) (fun start => finish op.kind start) fun _ => Holds (Tight least) := by
  apply Meets.finish
  rintro L b start id pos stop ⟨hL, hstops, l, o, r, items, hsketch, ho, hitems⟩
  refine ⟨?_, .phrase op.kind [l, o, r], items, ?_, hitems, (Sketch.binds_phrase ho).2 hle, ?_⟩
  · intro x hx
    rw [List.mem_singleton.1 hx]
    exact Tree.allPrescribed_phrase id pos stop (hsketch ▸ hitems) hL
  · simp [Tree.sketchList, Tree.isTrivia, Tree.tokenKind?, Tree.sketch_phrase, hsketch]
  · intro l' q r' hq
    cases (Sketch.operation?_phrase ho).symm.trans hq
    exact hstops

theorem unary_holds (h : RulesRetain Tree.AllPrescribed rules) (hs : RulesSettled rules) :
    Meets (fun L _ => L = []) (fun _ => rules .unary) fun _ => Holds (Tight least) := by
  apply (hs.unary.meets h.unary).imp
  · exact fun _ _ => id
  · rintro _ L b ⟨hL, t, ht, hsketch, hoperand⟩
    obtain ⟨items, hitems⟩ := (hL t ht).holds.isPrescribed hoperand
    have hnone := (hL t ht).operation?_eq_none
    refine ⟨fun x hx => (hL x hx).holds, t.sketch, items, hsketch, hitems, ?_, ?_⟩
    · exact (Sketch.isAtom_of_isOperand hoperand hnone).binds least
    · intro l q r hq
      cases hnone.symm.trans hq

theorem Reads.blanks {blanks L : List Tree} {b : Builder} (h : Reads least L b)
    (hblanks : ∀ x ∈ blanks, x.isTrivia = true) : Reads least (blanks ++ L) b := by
  obtain ⟨hL, s, items, hsketch, hread⟩ := h
  have hnil : Tree.sketchList blanks = [] := by simpa [Tree.sketchList_eq] using hblanks
  refine ⟨?_, s, items, by rw [Tree.sketchList_append, hnil, hsketch]; rfl, hread⟩
  exact allOf_append (b := b) (forall_blanks Tree.hereditary_allPrescribed.token hblanks) hL

/-- The loop holds an operand that takes the operators that may follow it, and stops at those that
are too loose. -/
theorem binary_reads (h : RulesRetain Tree.AllPrescribed rules) (hs : RulesSettled rules)
    (hbinary : ∀ least, Meets (fun L _ => L = []) (fun _ => rules (.binary least)) fun _ =>
      Reads least) :
    Meets (fun L _ => L = []) (fun _ => binary rules least) fun _ => Reads least := by
  apply Meets.mark_bind
  rintro _ b blanks rfl hblanks
  refine Meets.imp (P := fun L _ => L = []) (Q := fun _ => Reads least)
    (Meets.bind (Q := fun _ => Holds (Tight least)) (unary_holds h hs) fun _ =>
      .loop (.get_bind fun b₀ => ?_)) (fun _ _ hnil => hnil.1)
    fun _ _ _ hread _ => hread.blanks hblanks
  cases hop : operatorAhead? b₀ with
  | none =>
      apply Meets.pure
      rintro L b ⟨⟨hL, s, items, hsketch, hitems, hbinds, -⟩, rfl⟩
      exact ⟨hL, s, items, hsketch, hitems, hbinds, fun q hq => nomatch hop.symm.trans hq⟩
  | some op =>
      refine .ite (fun hlt => .pure ?_) fun hle => ?_
      · rintro L b ⟨⟨hL, s, items, hsketch, hitems, hbinds, -⟩, rfl⟩
        refine ⟨hL, s, items, hsketch, hitems, hbinds, ?_⟩
        intro q hq
        cases hop.symm.trans hq
        exact hlt
      · have htakes : Meets (fun L b => Holds (Tight least) L b ∧ b = b₀) (fun _ => advance)
            fun _ => Takes op := by
          apply Meets.imp advance_takes
          · rintro L b ⟨hL, rfl⟩
            exact ⟨hL, hop⟩
          · exact fun _ _ _ => id
        refine Meets.bind htakes fun _ => Meets.bind (right_joins (hbinary op.rightLeast)) fun _ => ?_
        exact Meets.bind (finish_holds (Nat.le_of_not_lt hle)) fun _ => .pure fun _ _ => id

/-! ### Words between assignments -/

/-- The nodes behind the mark are as prescribed, and `C` holds of their sketches. -/
def Lists (C : List Sketch → Prop) : Assertion := fun L _ =>
  (∀ x ∈ L, x.AllPrescribed) ∧ C (Tree.sketchList L)

theorem assignment_lists (h : RulesRetain Tree.AllPrescribed rules) (hs : RulesSettled rules) :
    Meets (fun L _ => L = []) (fun _ => rules .assignment) fun _ => Lists fun ss => ∃ s, ss = [s] := by
  apply (hs.assignment.meets (h.rule .assignment)).imp
  · exact fun _ _ => id
  · rintro _ L b ⟨hL, t, -, hsketch, -⟩
    exact ⟨hL, t.sketch, hsketch⟩

theorem advance_lists :
    Meets (fun L b => Lists (fun ss => ∃ s, ss = [s]) L b ∧
        b.isAnyKeyword ["and", "or", "xor"] = true)
      (fun _ => advance) fun _ => Lists fun ss => ∃ s o, ss = [s, o] ∧ o.operator? = none := by
  apply Meets.advance
  · rintro L b l rest blanks id ⟨⟨hL, s, hs⟩, hword⟩ hahead hblanks hl
    refine ⟨?_, s, .token l.token.kind l.token.text, ?_, ?_⟩
    · exact allOf_taken (b := b) Tree.hereditary_allPrescribed.token hL hblanks id l.token
    · rw [Tree.sketchList_taken hl hblanks, hs]
      rfl
    · exact operator?_of_isAnyKeyword hahead hl hword
  · rintro L b ⟨-, hword⟩ hahead
    simp [isAnyKeyword, word?, hahead] at hword

theorem right_lists (h : RulesRetain Tree.AllPrescribed rules) (hs : RulesSettled rules) :
    Meets (Lists fun ss => ∃ s o, ss = [s, o] ∧ o.operator? = none) (fun _ => rules .assignment)
      fun _ => Lists fun ss => ∃ s o r, ss = [s, o, r] ∧ o.operator? = none := by
  apply Meets.on_top
  rintro L b ⟨hL, s, o, hsketch, ho⟩
  apply (assignment_lists h hs).imp
  · exact fun _ _ hnil => hnil.1
  · rintro _ L' b' ⟨hL', r, hr⟩
    refine ⟨allOf_append (b := b) hL hL', s, o, r, ?_, ho⟩
    rw [Tree.sketchList_append, hsketch, hr]
    rfl

/-- The word is no operator, so the phrase counts as an operand. -/
theorem finish_lists :
    Meets (Lists fun ss => ∃ s o r, ss = [s, o, r] ∧ o.operator? = none)
      (fun start => finish .logicalExpression start) fun _ => Lists fun ss => ∃ s, ss = [s] := by
  apply Meets.finish
  rintro L b start id pos stop ⟨hL, s, o, r, hsketch, ho⟩
  refine ⟨?_, _, rfl⟩
  intro x hx
  rw [List.mem_singleton.1 hx]
  refine Tree.allPrescribed_phrase id pos stop (.operand ⟨?_, rfl⟩) hL
  simp [hsketch, Sketch.operation?, ho]

theorem expression_retains (h : RulesRetain Tree.AllPrescribed rules) (hs : RulesSettled rules) :
    Retains Tree.AllPrescribed fun _ => expression rules := by
  refine Retains.nested h.hereditary (fun _ hx => hx.holds) (Meets.mark_bind ?_)
  intro L b blanks hL hblanks
  refine Meets.imp (P := fun L _ => L = []) (Meets.bind (assignment_lists h hs) fun _ => .loopWhile
    (Meets.bind advance_lists fun _ => Meets.bind (right_lists h hs) fun _ => finish_lists))
    (fun _ _ hnil => hnil.1) ?_
  rintro _ L' b' ⟨⟨hL', -⟩, -⟩ -
  exact allOf_append (allOf_append (b := b) hL (forall_blanks h.hereditary.token hblanks)) hL'

/-! ### The whole grammar -/

/-- Induction on the fuel: each rule does what it should if the rules it refers to do. -/
theorem run_reads (fuel : Nat) : RulesRetain Tree.AllPrescribed (run fuel) ∧
    ∀ least, Meets (fun L _ => L = []) (fun _ => run fuel (.binary least)) fun _ => Reads least := by
  induction fuel with
  | zero =>
      exact ⟨⟨Tree.hereditary_allPrescribed, fun _ => Meets.failure, Meets.failure, Meets.failure,
        Meets.failure⟩, fun _ => Meets.failure⟩
  | succ fuel ih =>
      obtain ⟨h, hbinary⟩ := ih
      have hs := run_rulesSettled fuel
      have hreads (least : Nat) : Meets (fun L _ => L = []) (fun _ => binary (run fuel) least)
          fun _ => Reads least := binary_reads h hs hbinary
      refine ⟨h.succ (fun least => holds_retains (hreads least)) (expression_retains h hs), hreads⟩

end Grammar

/-! ### Whole sources -/

theorem Slot.exists_eq_cons_of_filledBy {test : Sketch → Bool} {slots : List Slot} {cs : List Sketch}
    (h : filledBy (.one test :: slots) cs = true) :
    ∃ c rest, cs = c :: rest ∧ test c = true ∧ filledBy slots rest = true := by
  cases cs with
  | nil => cases h
  | cons c rest => exact ⟨c, rest, rfl, Bool.and_eq_true_iff.1 h⟩

theorem PhraseKind.slots?_of_isOperation {kind : PhraseKind} (h : kind.isOperation = true) :
    kind.slots? = some [.one Sketch.isOperand, .one (Sketch.isOperator kind),
      .one Sketch.isOperand] := by
  cases kind <;> simp [isOperation] at h <;> rfl

/-- The operators that make phrases of a kind are those of the table, and words. -/
theorem Sketch.operator?_of_isOperator {kind : PhraseKind} {o : Sketch}
    (h : o.isOperator kind = true) :
    (∃ op, o.operator? = some op ∧ op.kind = kind) ∨
      kind = .logicalExpression ∧ ∃ text, o = .token .name text ∧
        Text.lower text ∈ ["and", "or", "xor"] := by
  unfold isOperator at h
  split at h
  · rename_i text
    rcases Bool.or_eq_true_iff.1 h with h | h
    · obtain ⟨hkind, htext⟩ := Bool.and_eq_true_iff.1 h
      refine .inl ⟨⟨13, .instanceOfExpression, false⟩, ?_, (eq_of_beq hkind).symm⟩
      rw [operator?, if_pos ⟨rfl, eq_of_beq htext⟩]
    · obtain ⟨hkind, htext⟩ := Bool.and_eq_true_iff.1 h
      exact .inr ⟨eq_of_beq hkind, text, rfl, List.contains_iff_mem.1 htext⟩
  · rename_i k text hname
    obtain ⟨op, hop, hkind⟩ := (Option.any_eq_true ..).1 h
    refine .inl ⟨op, ?_, eq_of_beq hkind⟩
    rw [operator?, if_neg fun hk => hname hk.1]
    exact hop
  · cases h

/-- A phrase of such a kind is an operation of the table, or two operands with a word between them. -/
theorem Sketch.operation?_of_allows {kind : PhraseKind} {cs : List Sketch}
    (hkind : kind.isOperation = true) (h : kind.allows cs = true) :
    (operation? (.phrase kind cs)).isSome = true ∨
      kind = .logicalExpression ∧ ∃ l text r, cs = [l, .token .name text, r] ∧
        Text.lower text ∈ ["and", "or", "xor"] := by
  rw [PhraseKind.allows, PhraseKind.slots?_of_isOperation hkind, Option.all_some] at h
  obtain ⟨l, rest, rfl, -, h⟩ := Slot.exists_eq_cons_of_filledBy h
  obtain ⟨o, rest, rfl, ho, h⟩ := Slot.exists_eq_cons_of_filledBy h
  obtain ⟨r, rfl, -⟩ := Slot.exists_eq_singleton_of_filledBy_one h
  rcases operator?_of_isOperator ho with ⟨op, hop, rfl⟩ | ⟨hlogical, text, rfl, htext⟩
  · rw [operation?_phrase hop]
    exact .inl rfl
  · exact .inr ⟨hlogical, l, text, r, rfl, htext⟩

section Documents

variable {number : Nat} {uri text : String} {n : Node}

theorem Node.isAllowed (hn : n ∈ (Document.parse number uri text).root.descendants) :
    n.tree.IsAllowed := by
  obtain ⟨b, hparse, hpending, -⟩ := Document.exists_builder number uri text
  obtain ⟨found, hgrows⟩ := parse_grows hparse
  apply hgrows.allAllowed (fun _ ht => nomatch ht)
  rw [hpending, Tree.preorderList, Tree.preorderList, List.append_nil]
  exact Node.tree_mem_preorder hn

theorem Node.isPrescribed (hn : n ∈ (Document.parse number uri text).root.descendants) :
    n.tree.IsPrescribed := by
  obtain ⟨b, -, -, htree⟩ := Document.exists_builder_of_meets
    (Grammar.script_retains fun fuel => (run_reads fuel).1) number uri text allOf_nil
  exact htree _ (List.mem_singleton_self _) n.tree (Node.tree_mem_preorder hn)

end Documents

/-- Every sequence of operands and operators has one tree by the table, and the phrases that operators
make are of this kind. The operand on the left of an operator has no less power than it, or more if the
operator associates to the right; with the operand on the right it is the other way round. Where the
operators of at least some power are read, all of them are, until one of less power is ahead. -/
theorem operators_bind_by_power (number : Nat) (uri text : String) :
    (∀ n ∈ (Document.parse number uri text).root.descendants, ∀ l op r,
      n.tree.sketch.operation? = some (l, op, r) →
        (∀ l' q r', l.operation? = some (l', q, r') →
          op.power ≤ q.power ∧ (op.rightAssociative = true → op.power < q.power)) ∧
        (∀ l' q r', r.operation? = some (l', q, r') →
          op.power ≤ q.power ∧ (op.rightAssociative = false → op.power < q.power)) ∧
        ∃ items, n.tree.sketch.Prescribed items ∧
          ∀ s, s.Prescribed items → s = n.tree.sketch) ∧
    (∀ n ∈ (Document.parse number uri text).root.descendants, ∀ kind,
      n.phraseKind? = some kind → kind.isOperation = true →
        n.tree.sketch.operation?.isSome = true ∨
          kind = .logicalExpression ∧ ∃ l word r,
            n.tree.sketch = .phrase kind [l, .token .name word, r] ∧
              Text.lower word ∈ ["and", "or", "xor"]) ∧
    (∀ items, Sketch.IsSequence items → ∃! s, Sketch.Prescribed s items) ∧
    ∀ (b : Builder) (least : Nat), b.Tidy → b.left = b.ahead.length →
      ∃ b' new s items, binary (run (fuelFor b.left)) least b = some ((), b') ∧
        b'.pending.toList = b.pending.toList ++ new ∧ Tree.sketchList new = [s] ∧
        s.Prescribed items ∧ s.Binds least ∧
        ∀ q, operatorAhead? b' = some q → q.power < least := by
  refine ⟨?_, ?_, fun _ => Sketch.IsSequence.existsUnique_prescribed, ?_⟩
  · intro n hn l op r hop
    obtain ⟨o, hphrase, -⟩ := Sketch.exists_of_operation? hop
    obtain ⟨items, hitems⟩ := Node.isPrescribed hn (by rw [hphrase]; rfl)
    obtain ⟨hleft, hright⟩ := hitems.sides hop
    refine ⟨?_, ?_, items, hitems, fun s hs => hs.unique hitems⟩
    · intro l' q r' hq
      have hle := hleft l' q r' hq
      rw [Operator.leftLeast] at hle
      cases hassoc : op.rightAssociative <;> simp [hassoc] at hle ⊢ <;> omega
    · intro l' q r' hq
      have hle := hright l' q r' hq
      rw [Operator.rightLeast] at hle
      cases hassoc : op.rightAssociative <;> simp [hassoc] at hle ⊢ <;> omega
  · intro n hn kind hkind hoperation
    have hallowed := Node.isAllowed hn kind hkind
    cases htree : n.tree with
    | token id t => simp [Node.phraseKind?, htree, Tree.phraseKind?] at hkind
    | phrase id kind' pos stop cs =>
        obtain rfl : kind' = kind := by simpa [Node.phraseKind?, htree, Tree.phraseKind?] using hkind
        rw [htree] at hallowed
        rw [Tree.sketch_phrase]
        rcases Sketch.operation?_of_allows hoperation hallowed with h | ⟨hlogical, l, word, r, hcs, h⟩
        · exact .inl h
        · exact .inr ⟨hlogical, l, word, r, by rw [← hcs]; rfl, h⟩
  · intro b least htidy hleft
    obtain ⟨_, b', heq, -⟩ := expressionParsers_works 0 b.left least
      (binary (run (fuelFor b.left)) least) (by simp [expressionParsers]) b
      ⟨Nat.zero_le _, hleft⟩ (Nat.lt_succ_self _)
    have hrules := run_reads (fuelFor b.left)
    have hreads : Meets (fun L _ => L = []) (fun _ => binary (run (fuelFor b.left)) least)
        fun _ => Reads least :=
      binary_reads hrules.1 (run_rulesSettled _) hrules.2
    obtain ⟨hframe, -, s, items, hsketch, hitems, hbinds, hstops⟩ :=
      hreads b.pending.size b htidy (Nat.le_refl _) (forest_size b) () b' heq
    refine ⟨b', b'.forest b.pending.size, s, items, heq, ?_, hsketch, hitems, hbinds, hstops⟩
    have hforest := forest_of_keeps (Nat.zero_le _) hframe.toKeeps
    simpa [forest] using hforest

end ArrayShapes.Syntax
