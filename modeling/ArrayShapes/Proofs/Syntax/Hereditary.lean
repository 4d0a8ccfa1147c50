import ArrayShapes.Proofs.Syntax.Contract
import ArrayShapes.Proofs.Syntax.Operands
import ArrayShapes.Proofs.Syntax.Precedence

/-!
Properties of trees that a phrase has if its children have them. Operations are left out, so all the
rest of the grammar keeps such a property whatever it says about operations; and where a rule reads
the operand of an operator, it leaves no operation on top. Of variables more is known than the
properties of their children: a name has no phrase beside it.
-/

namespace ArrayShapes.Syntax

/-- Neither operations nor variables. -/
def PhraseKind.isOrdinary : PhraseKind → Bool
  | .simpleVariable => false
  | kind => !kind.isOperation

theorem PhraseKind.isOperation_of_isOrdinary {kind : PhraseKind} (h : kind.isOrdinary = true) :
    kind.isOperation = false := by
  cases kind <;> simp [isOrdinary] at h <;> exact h

namespace Tree

/-- What a variable is made up of: a name alone, or something else that names it. -/
def IsNaming (cs : List Tree) : Prop :=
  (∀ c ∈ cs, c.phraseKind? = none) ∨ ∀ c ∈ cs, c.tokenKind? ≠ some .variableName

/-- Tokens have the property, and so have phrases with such children, operations apart; a variable has
it if it is named as the grammar has it. -/
structure Hereditary (ok : Tree → Prop) : Prop where
  token : ∀ id t, ok (.token id t)
  phrase : ∀ {kind : PhraseKind} {cs : List Tree} (id pos stop : Nat), kind.isOrdinary = true →
    (∀ c ∈ cs, ok c) → ok (.phrase id kind pos stop cs)
  naming : ∀ {cs : List Tree} (id pos stop : Nat), IsNaming cs → (∀ c ∈ cs, ok c) →
    ok (.phrase id .simpleVariable pos stop cs)

/-- A node with the property that is no operation. -/
structure Simple (ok : Tree → Prop) (t : Tree) : Prop where
  holds : ok t
  kind : ∀ kind, t.phraseKind? = some kind → kind.isOperation = false

theorem Hereditary.simple_token {ok : Tree → Prop} (h : Hereditary ok) (id : Nat) (t : Token) :
    Simple ok (.token id t) :=
  ⟨h.token id t, fun _ hkind => nomatch hkind⟩

theorem Hereditary.simple_phrase {ok : Tree → Prop} {kind : PhraseKind} {cs : List Tree}
    (h : Hereditary ok) (id pos stop : Nat) (hkind : kind.isOrdinary = true)
    (hcs : ∀ c ∈ cs, ok c) : Simple ok (.phrase id kind pos stop cs) := by
  refine ⟨h.phrase id pos stop hkind hcs, ?_⟩
  intro kind' hkind'
  cases hkind'
  exact PhraseKind.isOperation_of_isOrdinary hkind

theorem Hereditary.simple_naming {ok : Tree → Prop} {cs : List Tree} (h : Hereditary ok)
    (id pos stop : Nat) (hnaming : IsNaming cs) (hcs : ∀ c ∈ cs, ok c) :
    Simple ok (.phrase id .simpleVariable pos stop cs) := by
  refine ⟨h.naming id pos stop hnaming hcs, ?_⟩
  intro kind hkind
  cases hkind
  rfl

theorem Hereditary.simple {ok : Tree → Prop} (h : Hereditary ok) : Hereditary (Simple ok) where
  token := h.simple_token
  phrase id pos stop hkind hcs := h.simple_phrase id pos stop hkind fun c hc => (hcs c hc).holds
  naming id pos stop hnaming hcs := h.simple_naming id pos stop hnaming fun c hc => (hcs c hc).holds

end Tree

namespace Parser

open Builder ArrayShapes.Syntax.Tree

variable {α β : Type} {ok good good' : Tree → Prop}

/-- All nodes behind the mark have the property. -/
def AllOf (good : Tree → Prop) : Assertion := fun L _ => ∀ x ∈ L, good x

/-- Behind the mark, nodes have the property before and after. -/
abbrev Retains (good : Tree → Prop) (p : Nat → Parser α) : Prop := Maintains (AllOf good) p

theorem allOf_append {L L' : List Tree} {b : Builder} (h : ∀ x ∈ L, good x)
    (h' : ∀ x ∈ L', good x) : AllOf good (L ++ L') b := by
  intro x hx
  rcases List.mem_append.1 hx with hx | hx
  · exact h x hx
  · exact h' x hx

theorem forall_blanks {blanks : List Tree} (htoken : ∀ id t, good (.token id t))
    (hblanks : ∀ x ∈ blanks, x.isTrivia = true) : ∀ x ∈ blanks, good x := by
  intro x hx
  obtain ⟨id, t, rfl, -⟩ := Tree.eq_token_of_isTrivia (hblanks x hx)
  exact htoken id t

/-- Behind nodes with the property, a token that is taken together with the blank text before it. -/
theorem allOf_taken {L blanks : List Tree} {b : Builder} (htoken : ∀ id t, good (.token id t))
    (hL : ∀ x ∈ L, good x) (hblanks : ∀ x ∈ blanks, x.isTrivia = true) (id : Nat) (t : Token) :
    AllOf good (L ++ (blanks ++ [.token id t])) b := by
  rw [← List.append_assoc]
  refine allOf_append (allOf_append (b := b) hL (forall_blanks htoken hblanks)) ?_
  intro x hx
  rw [List.mem_singleton.1 hx]
  exact htoken id t

theorem allOf_nil {b : Builder} : AllOf good [] b := fun _ hx => nomatch hx

theorem steady_allOf (htoken : ∀ id t, good (.token id t)) : Steady (AllOf good) where
  advance := by
    apply Meets.advance
    · intro L b l rest blanks id hL _ hblanks _
      exact allOf_taken htoken hL hblanks id l.token
    · exact fun L b hL _ => hL
  report q := Meets.report fun L b hL => hL

/-- One operand is left and nothing else but blank text. -/
theorem Operand.meets {p : Parser Unit} (ho : Operand p) (h : Retains good fun _ => p) :
    Meets (fun L _ => L = []) (fun _ => p) fun _ L _ => (∀ x ∈ L, good x) ∧
      ∃ t ∈ L, Tree.sketchList L = [t.sketch] ∧ t.sketch.isOperand = true := by
  intro base b htidy hle hnil a b' heq
  obtain ⟨hframe, hgood⟩ := h base b htidy hle (by rw [hnil]; exact allOf_nil) a b' heq
  obtain ⟨new, t, hpending, hfilter, ht⟩ := ho.pushes_one htidy heq
  have hforest : b'.forest base = new := by
    rw [forest_of_append hle hpending, hnil, List.nil_append]
  refine ⟨hframe, hgood, t, ?_, ?_, ht⟩
  · have hmem : t ∈ new.filter (!·.isTrivia) := hfilter ▸ List.mem_singleton_self t
    rw [hforest]
    exact (List.mem_filter.1 hmem).1
  · rw [hforest, Tree.sketchList_eq, hfilter]
    rfl

/-- Nodes with the property become a phrase that has it too and is no operation. -/
def Closes (ok : Tree → Prop) (p : Nat → Parser α) : Prop :=
  Meets (AllOf ok) p fun _ => AllOf (Simple ok)

namespace Closes

theorem after {p : Nat → Parser α} {f : α → Nat → Parser β} (hp : Retains ok p)
    (hf : ∀ a, Closes ok (f a)) : Closes ok fun base => p base >>= fun a => f a base :=
  Meets.bind hp hf

theorem get_bind {f : Builder → Nat → Parser α} (h : ∀ b, Closes ok (f b)) :
    Closes ok fun base => get >>= fun b => f b base :=
  Meets.get_bind fun b => (h b).imp (fun _ _ hb => hb.1) fun _ _ _ => id

theorem ite {c : Prop} [Decidable c] {p q : Nat → Parser α} (hp : Closes ok p) (hq : Closes ok q) :
    Closes ok fun base => if c then p base else q base :=
  Meets.ite (fun _ => hp) fun _ => hq

theorem when {c : Prop} [Decidable c] {p : Nat → Parser Unit} {f : Unit → Nat → Parser β}
    (hp : Retains ok p) (hf : ∀ u, Closes ok (f u)) :
    Closes ok fun base => if c then p base >>= fun u => f u base else f () base :=
  ite (after hp hf) (hf ())

/-- A step of a loop that goes on. -/
theorem go {p : Nat → Parser Unit} (hp : Closes ok p) :
    Closes ok fun base => (p base >>= fun _ => (Pure.pure true : Parser Bool)) :=
  Meets.bind hp fun _ => Meets.pure fun _ _ => id

theorem retains {p : Nat → Parser α} (hp : Closes ok p) : Retains (Simple ok) p :=
  hp.imp (fun _ _ hL x hx => (hL x hx).holds) fun _ _ _ => id

end Closes

namespace Retains

theorem flush (htoken : ∀ id t, good (.token id t)) :
    Retains good fun _ => (modify Builder.flush : Parser Unit) := by
  apply Meets.flush
  intro L b blanks hL hblanks
  exact allOf_append hL (forall_blanks htoken hblanks)

/-- What a parser adds has the property, so it has what follows from it too. -/
theorem mono {p : Parser α} (h : Retains good fun _ => p) (hgood : ∀ x, good x → good' x) :
    Retains good' fun _ => p := by
  apply Meets.on_top
  intro L b hL
  apply h.imp
  · rintro _ _ ⟨rfl, -⟩
    exact allOf_nil
  · intro a L' b' hL'
    exact allOf_append hL fun x hx => hgood x (hL' x hx)

theorem of_simple {p : Parser α} (h : Retains (Simple ok) fun _ => p) : Retains ok fun _ => p :=
  h.mono fun _ hx => hx.holds

theorem mark_bind {f : Nat → Parser α} (htoken : ∀ id t, good (.token id t)) (h : Retains good f) :
    Retains good fun _ => mark >>= f := by
  apply Meets.mark_bind
  intro L b blanks hL hblanks
  apply h.imp
  · rintro _ _ ⟨rfl, -⟩
    exact allOf_nil
  · intro a L' b' hL' _
    exact allOf_append
      (allOf_append (b := b) hL (forall_blanks htoken hblanks)) hL'

theorem phrase_of_meets {kind : PhraseKind} {body : Parser Unit}
    (htoken : ∀ id t, good (.token id t))
    (h : Meets (fun L _ => L = []) (fun base => body >>= fun _ => Parser.finish kind base) fun _ =>
      AllOf good) : Retains good fun _ => phrase kind body := by
  apply Meets.mark_bind
  intro L b blanks hL hblanks
  apply h.imp
  · rintro _ _ ⟨rfl, -⟩
    rfl
  · intro a L' b' hL' _
    exact allOf_append (allOf_append (b := b) hL (forall_blanks htoken hblanks)) hL'

/-- A token of one kind is taken, with the blank text in front of it. -/
theorem accept {k : TokenKind}
    (h : ∀ id (t : Token), t.kind = k ∨ t.isTrivia = true → good (.token id t)) :
    Retains good fun _ => accept k := by
  refine Meets.get_bind fun b₀ => .ite (fun hat => ?_) fun _ => .pure fun _ _ hb => hb.1
  have htake : Meets (fun L b => AllOf good L b ∧ b = b₀) (fun _ => advance) fun _ => AllOf good := by
    apply Meets.advance
    · rintro L b l rest blanks id ⟨hL, rfl⟩ hahead hblanks -
      have hkind : l.token.kind = k := by simpa [isAt, kind?, hahead] using hat
      refine allOf_append hL (allOf_append (b := b) (fun x hx => ?_) fun x hx => ?_)
      · obtain ⟨id, t, rfl, ht⟩ := Tree.eq_token_of_isTrivia (hblanks x hx)
        exact h id t (.inr ht)
      · rw [List.mem_singleton.1 hx]
        exact h id l.token (.inl hkind)
    · exact fun L b hb _ => hb.1
  exact htake.bind fun _ => .pure fun _ _ => id

theorem expect {k : TokenKind} {text : String}
    (h : ∀ id (t : Token), t.kind = k ∨ t.isTrivia = true → good (.token id t)) :
    Retains good fun _ => expect k text := by
  have hreport : Retains good fun _ => Parser.report (.expected text) := Meets.report fun L b hL => hL
  refine Maintains.bind ?_ fun _ => .pure _
  exact (accept h).bind fun _ => .ite (.pure _) (hreport.bind fun _ => .pure _)

/-- An operand is no name. -/
theorem of_operand {p : Parser Unit} (ho : Operand p) (h : Retains good fun _ => p) :
    Retains (fun x => good x ∧ x.tokenKind? ≠ some .variableName) fun _ => p := by
  apply Meets.on_top
  intro L b hL
  apply (ho.meets h).imp
  · exact fun _ _ hb => hb.1
  · rintro _ L' b' ⟨hL', t, -, hsketch, ht⟩
    refine allOf_append hL fun x hx => ⟨hL' x hx, fun hname => ?_⟩
    cases x with
    | phrase => cases hname
    | token id u =>
        have hkind : u.kind = .variableName := by simpa [Tree.tokenKind?] using hname
        have hmem : (Tree.token id u).sketch ∈ Tree.sketchList L' := by
          rw [Tree.sketchList_eq]
          refine List.mem_map_of_mem (List.mem_filter.2 ⟨hx, ?_⟩)
          simp [Tree.isTrivia, Tree.tokenKind?, hkind, TokenKind.isTrivia]
        rw [hsketch, List.mem_singleton] at hmem
        rw [← hmem, Tree.sketch, hkind] at ht
        cases ht

section

variable (hok : Hereditary ok) {kind : PhraseKind} {body : Parser Unit}
include hok

/-- A phrase around nodes with the property is one that is no operation. -/
theorem finish_simple (hkind : kind.isOrdinary = true) :
    Closes ok fun base => finish kind base := by
  apply Meets.finish
  intro L b base id pos stop hL x hx
  rw [List.mem_singleton.1 hx]
  exact hok.simple_phrase id pos stop hkind hL

theorem finish (hkind : kind.isOrdinary = true) : Retains ok fun base => finish kind base :=
  (finish_simple hok hkind).imp (fun _ _ => id) fun _ _ _ hL x hx => (hL x hx).holds

theorem phrase_simple (hkind : kind.isOrdinary = true) (h : Retains ok fun _ => body) :
    Retains (Simple ok) fun _ => phrase kind body := by
  apply phrase_of_meets hok.simple_token
  apply (Closes.after h fun _ => finish_simple hok hkind).imp
  · rintro _ _ rfl
    exact allOf_nil
  · exact fun _ _ _ => id

theorem phrase (hkind : kind.isOrdinary = true) (h : Retains ok fun _ => body) :
    Retains ok fun _ => phrase kind body :=
  (phrase_simple hok hkind h).of_simple

theorem listPhrase (hkind : kind.isOrdinary = true) (h : Retains ok fun _ => body) :
    Retains ok fun _ => listPhrase kind body := by
  apply Meets.listPhrase
  intro L b hL
  apply h.imp
  · rintro _ _ ⟨rfl, -⟩
    exact allOf_nil
  · intro a L' b' hL' _ id pos stop start
    refine allOf_append hL ?_
    intro x hx
    rw [List.mem_singleton.1 hx]
    exact hok.phrase id pos stop hkind hL'

theorem skipToken {q : Problem} : Retains (Simple ok) fun _ => skipToken q :=
  ((steady_allOf hok.simple_token).report q).bind fun _ =>
    phrase_simple hok rfl (steady_allOf hok.token).advance

/-- One level deeper, or a token that is an error. -/
theorem nested {construct : Construct} (hgood : ∀ x, Simple ok x → good x)
    (h : Retains good fun _ => body) : Retains good fun _ => nested construct body := by
  apply Meets.nested
  · have herror : Retains (Simple ok) fun _ =>
        (Parser.report .nestingTooDeep >>= fun _ => Parser.skipToken (.missing construct)) :=
      ((steady_allOf hok.simple_token).report _).bind fun _ => skipToken hok
    exact (herror.mono hgood).imp (fun _ _ hb => hb.1) fun _ _ _ => id
  · exact h.imp (fun _ _ ⟨_, _, _, hL⟩ => hL) fun _ _ _ => id

end

end Retains

end Parser

end ArrayShapes.Syntax
