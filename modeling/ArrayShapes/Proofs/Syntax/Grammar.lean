import ArrayShapes.Proofs.Syntax.Grammar.Statement
import ArrayShapes.Syntax.Grammar

/-!
The grammar always has a result: the fuel of the rules lasts, whatever the tokens are.
-/

namespace ArrayShapes.Syntax.Grammar

open ArrayShapes.Syntax.Parser Builder

/-- How many rules may be entered from a rule before a token is taken. The way goes down from
statements to variables; only a keyword leads back from an operand to an assignment, which then
takes it. -/
def rank (b : Builder) : Rule → Nat
  | .simpleVariable | .typeDeclaration => 0
  | .unary => 1
  | .binary _ => 2
  | .assignment => if b.isAnyKeyword looseKeywords then 0 else 3
  | .expression => 4
  | .statement => 5

theorem rank_assignment_le (b : Builder) : rank b .assignment ≤ 3 := by
  simp only [rank]
  split <;> omega

theorem rank_le (b : Builder) (rule : Rule) : rank b rule ≤ 5 := by
  cases rule with
  | assignment => exact Nat.le_trans (rank_assignment_le b) (by decide)
  | _ => simp [rank]

/-- Induction on the fuel: each rule spends one and goes on to a lower rank, or to any rank with
a token less. -/
theorem run_works {base n : Nat} {b : Builder} (rule : Rule) (hr : Ready base b)
    (hn : 16 * b.left + rank b rule < n) :
    (run n rule).Ensures b fun _ b' => Built base b b' ∧ True := by
  induction n generalizing rule base b with
  | zero => exact absurd hn (Nat.not_lt_zero _)
  | succ n ih =>
      -- a token that was taken has left fuel for more rules than any rank
      have hrules : RulesWork b.left (run n) := fun rule' _ b' hr' hb' => by
        have := rank_le b' rule'
        exact ih rule' hr' (by omega)
      have hdown {rule'} (hrank : ∀ b', rank b' rule' < rank b rule) {base} :
          Works base (b.left + 1) (run n rule') := fun b' hr' hb' => by
        have := hrank b'
        exact ih rule' hr' (by omega)
      have hb := Nat.lt_succ_self b.left
      cases rule with
      | statement => exact statement_works hrules (hdown fun _ => by simp [rank]) b hr hb
      | expression =>
          refine expression_works hrules (hdown fun b' => ?_) b hr hb
          exact Nat.lt_succ_of_le (rank_assignment_le b')
      | assignment =>
          by_cases hloose : b.isAnyKeyword looseKeywords = true
          · exact assignment_of_loose hrules hr hb hloose
          · exact assignment_works hrules (hdown fun _ => by simp [rank, hloose]) b hr hb
      | binary least => exact binary_works hrules (hdown fun _ => by simp [rank]) b hr hb
      | unary =>
          refine unary_works hrules (hdown fun _ => by simp [rank]) (fun hr' hb' hloose => ?_)
            b hr hb
          -- back up from an operand, but to an assignment of rank 0
          refine ih .assignment hr' ?_
          simp only [rank, hloose, if_true] at hn ⊢
          omega
      | simpleVariable => exact simpleVariable_works hrules b hr hb
      | typeDeclaration => exact typeDeclaration_works hrules b hr hb

theorem run_fuelFor_rulesWork (k : Nat) : RulesWork (k + 1) (run (fuelFor k)) := by
  intro rule base b hr hb
  have := rank_le b rule
  exact run_works rule hr (by unfold fuelFor; omega)

/-! ### Whole sources -/

/-- A list of statements that nothing else ends goes on to the last token. -/
theorem ahead_of_statementList {rules : Rules} {b b' : Builder} {u : Unit}
    (hl : statementList rules (fun _ => false) b = some (u, b')) : b'.ahead = [] := by
  obtain ⟨start, b₁, -, hl⟩ := bind_eq_some.1 hl
  obtain ⟨_, b₂, hloop, hfinish⟩ := bind_eq_some.1 hl
  have hgo := go_eq_false_of_loopWhile hloop
  have hend : b₂.ahead = [] := by simpa [atEnd] using hgo
  obtain ⟨-, heq⟩ := finish_eq_some.1 hfinish
  cases heq
  exact hend

/-- A source is read to its end, and what has been read above the mark in front of it is one phrase. -/
theorem script_result {b : Builder} (hr : Ready 0 b) :
    ∃ b', Built 0 b b' ∧ b'.ahead = [] ∧ b'.trailing = [] ∧
      b.flush.pending.size ≤ b'.pending.size ∧
      script b = some ((), b'.finish .script b.flush.pending.size) := by
  have hready := (Built.flush b).ready hr
  obtain ⟨u, b', heq, hbuilt, -⟩ :=
    statementList_works (run_fuelFor_rulesWork b.flush.left) b.flush
      ⟨Nat.le_refl _, hready.left_eq⟩ (Nat.lt_succ_self _)
  have hahead := ahead_of_statementList heq
  have hbody := hbuilt.trans (.flush b')
  have hmark := (hbody.ready ⟨Nat.le_refl _, hready.left_eq⟩).base_le
  refine ⟨b'.flush, (Built.flush b).trans (hbody.mono (Nat.zero_le _)), ?_, ?_, hmark, ?_⟩
  · rw [flush_nil hahead]
    exact hahead
  · rw [flush_nil hahead]
  · refine bind_eq_some.2 ⟨_, _, rfl, bind_eq_some.2 ⟨_, _, rfl, ?_⟩⟩
    exact bind_eq_some.2 ⟨u, b', heq, finish_of_le hmark⟩

end ArrayShapes.Syntax.Grammar
