import ArrayShapes.Proofs.Syntax.Binding
import ArrayShapes.Proofs.Syntax.Reach

/-!
What variables are made up of. A variable is a name, or a dollar sign and what the name is computed
from. Names stand alone, so nothing is below a variable that has one but the name and blank text.
-/

namespace ArrayShapes.Syntax

open ArrayShapes.Syntax.Parser ArrayShapes.Syntax.Grammar

namespace Grammar

variable {ok : Tree → Prop} {rules : Rules}

theorem isOperation_of_operatorAhead? {b : Builder} {op : Operator}
    (h : operatorAhead? b = some op) : op.kind.isOperation = true := by
  rw [operatorAhead?] at h
  split at h
  · cases h
    rfl
  · obtain ⟨kind, -, h⟩ := Option.bind_eq_some_iff.1 h
    cases kind <;> cases h <;> rfl

/-- Operations have the property too if their children have it. -/
def OfOperations (ok : Tree → Prop) : Prop :=
  ∀ {kind : PhraseKind} {cs : List Tree} (id pos stop : Nat), kind.isOperation = true →
    (∀ c ∈ cs, ok c) → ok (.phrase id kind pos stop cs)

theorem OfOperations.finish {kind : PhraseKind} (hok : OfOperations ok)
    (hkind : kind.isOperation = true) : Retains ok fun start => Parser.finish kind start := by
  apply Meets.finish
  intro L b base id pos stop hL x hx
  rw [List.mem_singleton.1 hx]
  exact hok id pos stop hkind hL

theorem OfOperations.binary {least : Nat} (hok : OfOperations ok) (h : RulesRetain ok rules) :
    Retains ok fun _ => binary rules least := by
  refine h.marked ((h.rule .unary).bind fun _ => .loop (.get_bind fun b => ?_))
  cases hop : operatorAhead? b with
  | none => exact .pure _
  | some op =>
      have hfinish := hok.finish (isOperation_of_operatorAhead? hop)
      refine .ite (.pure _) (h.steady.advance.bind fun _ => (h.rule _).bind fun _ => ?_)
      exact hfinish.bind fun _ => .pure _

theorem OfOperations.expression (hok : OfOperations ok) (h : RulesRetain ok rules) :
    Retains ok fun _ => expression rules := by
  refine Retains.nested h.hereditary (fun _ hx => hx.holds) (h.marked ?_)
  refine (h.rule .assignment).bind fun _ => .loopWhile (h.steady.advance.bind fun _ => ?_)
  exact (h.rule .assignment).bind fun _ => hok.finish rfl

/-- The whole grammar keeps what phrases of all kinds take over from their children. -/
theorem run_retains (hok : Tree.Hereditary ok) (hoperations : OfOperations ok) (fuel : Nat) :
    RulesRetain ok (run fuel) := by
  induction fuel with
  | zero =>
      exact ⟨hok, fun _ => Meets.failure, Meets.failure, Meets.failure, Meets.failure⟩
  | succ fuel ih => exact ih.succ (fun _ => hoperations.binary ih) (hoperations.expression ih)

end Grammar

namespace Tree

/-- All variables in the tree are names or have none. -/
def AllNaming (t : Tree) : Prop :=
  ∀ u ∈ t.preorder, u.phraseKind? = some .simpleVariable → IsNaming u.children

theorem allNaming_phrase {kind : PhraseKind} {cs : List Tree} (id pos stop : Nat)
    (h : kind = .simpleVariable → IsNaming cs) (hcs : ∀ c ∈ cs, c.AllNaming) :
    AllNaming (.phrase id kind pos stop cs) :=
  forall_preorder_phrase (fun hkind => h (Option.some_inj.1 hkind)) hcs

theorem hereditary_allNaming : Hereditary AllNaming where
  token id t := by
    intro u hu hkind
    rw [preorder_eq] at hu
    cases List.mem_singleton.1 hu
    cases hkind
  phrase id pos stop hkind hcs := by
    refine allNaming_phrase id pos stop ?_ hcs
    rintro rfl
    cases hkind
  naming id pos stop hnaming hcs := allNaming_phrase id pos stop (fun _ => hnaming) hcs

theorem ofOperations_allNaming : OfOperations AllNaming := by
  intro kind cs id pos stop hkind hcs
  refine allNaming_phrase id pos stop ?_ hcs
  rintro rfl
  cases hkind

end Tree

section Documents

variable {number : Nat} {uri text : String} {v m : Node}

theorem Node.isNaming (hv : v ∈ (Document.parse number uri text).root.descendants)
    (hkind : v.phraseKind? = some .simpleVariable) : Tree.IsNaming v.tree.children := by
  have hscript := script_retains (run_retains Tree.hereditary_allNaming Tree.ofOperations_allNaming)
  obtain ⟨b, -, -, htree⟩ := Document.exists_builder_of_meets hscript number uri text allOf_nil
  exact htree _ (List.mem_singleton_self _) v.tree (Node.tree_mem_preorder hv) hkind

/-- No phrase is below a variable that has a name. -/
theorem Node.phraseKind?_of_named (hm : m ∈ (Document.parse number uri text).root.descendants)
    (hkind : v.phraseKind? = some .simpleVariable)
    (hname : (v.childToken? .variableName).isSome = true) (habove : v ∈ m.above) :
    m.phraseKind? = none := by
  have hv := mem_descendants_of_mem_above hm v habove
  obtain ⟨name, hname⟩ := Option.isSome_iff_exists.1 hname
  rw [childToken?] at hname
  have hnameKind := List.find?_some hname
  have htoken : ∀ c ∈ v.tree.children, c.phraseKind? = none := by
    apply (isNaming hv hkind).resolve_right
    intro hnone
    apply hnone name.tree (tree_mem_of_mem_children (List.mem_of_find?_eq_some hname))
    exact LawfulBEq.eq_of_beq hnameKind
  rcases mem_descendants_iff.1 ((mem_descendants_iff_above hv).2 (.inr ⟨hm, habove⟩)) with
    rfl | ⟨c, hc, hmem⟩
  · exact absurd habove (not_mem_above hv habove)
  · have hc := htoken c.tree (tree_mem_of_mem_children hc)
    have hleaf : c.tree.children = [] := by
      cases htree : c.tree with
      | token => rfl
      | phrase => simp [htree, Tree.phraseKind?] at hc
    rcases mem_descendants_iff.1 hmem with rfl | ⟨k, hk, -⟩
    · exact hc
    · have hk := tree_mem_of_mem_children hk
      simp [hleaf] at hk

end Documents

end ArrayShapes.Syntax
