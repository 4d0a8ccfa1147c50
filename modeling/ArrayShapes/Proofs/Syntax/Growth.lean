import ArrayShapes.Proofs.Syntax.Lossless
import ArrayShapes.Proofs.Syntax.Sketch

/-!
How a forest grows. The steps of the grammar are nested: what is done behind a mark leaves the nodes
in front of it alone, and a phrase is finished at the mark that was taken last. A list takes in the
blank text in front of it, so its mark stands before that text, unless the list is empty.
-/

namespace ArrayShapes.Syntax

/-- Kinds of phrases that take in the blank text in front of them. -/
def PhraseKind.isList : PhraseKind → Bool
  | .statementList | .classMemberDeclarationList => true
  | _ => false

/-- A problem that the grammar finds with `left` tokens to go. -/
structure Notice where
  left : Nat
  problem : Problem

namespace Builder

/-- Sketches of the pending nodes from `base` on. -/
def nodes (b : Builder) (base : Nat) : List Sketch := Tree.sketchList (b.pending.toList.drop base)

/-- From one builder to another by steps behind the mark `base`, with the problems found on the way. -/
inductive Grows : Nat → List Notice → Builder → Builder → Prop where
  | refl {base b} : Grows base [] b b
  | trans {base b b' b'' found found'} (first : Grows base found b b')
      (rest : Grows base found' b' b'') : Grows base (found ++ found') b b''
  | advance {base} (b : Builder) : Grows base [] b b.advance
  | flush {base} (b : Builder) : Grows base [] b b.flush
  | report {base} (b : Builder) (p : Problem) : Grows base [⟨b.left, p⟩] b (b.report p)
  | finish {base} (b : Builder) (kind : PhraseKind) (allowed : kind.allows (b.nodes base) = true) :
      Grows base [] b (b.finish kind base)
  | nested {base b b' found} (room : b.depth < maxDepth)
      (body : Grows base found { b with depth := b.depth + 1 } b') :
      Grows base found b { b' with depth := b'.depth - 1 }
  | mark {base b b' found} (body : Grows b.flush.pending.size found b.flush b') :
      Grows base found b b'
  | list {base b b' found} (kind : PhraseKind) (isList : kind.isList = true)
      (body : Grows b.pending.size found b.flush b') :
      Grows base found b (b'.finish kind b.pending.size)
  | emptyList {base} (b : Builder) (kind : PhraseKind) (isList : kind.isList = true) :
      Grows base [] b (b.finish kind b.pending.size)

variable {base : Nat} {b b' : Builder} {found : List Notice}

/-! ### Single steps -/

theorem advance_pending (b : Builder) :
    ∃ ts, b.advance.pending.toList = b.pending.toList ++ leaves b.made ts := by
  obtain ⟨ts, hp⟩ := advance_placed b
  exact ⟨ts, hp.pending⟩

theorem flush_pending (b : Builder) :
    ∃ ts, b.flush.pending.toList = b.pending.toList ++ leaves b.made ts := by
  obtain ⟨ts, hp⟩ := flush_placed b
  exact ⟨ts, hp.pending⟩

theorem size_le_flush (b : Builder) : b.pending.size ≤ b.flush.pending.size := by
  obtain ⟨ts, hts⟩ := flush_pending b
  rw [← Array.length_toList, ← Array.length_toList, hts]
  simp

theorem mem_preorderList_finish {kind : PhraseKind} {mark : Nat} {t : Tree}
    (h : t ∈ Tree.preorderList (b.finish kind mark).pending.toList) :
    t ∈ Tree.preorderList b.pending.toList ∨
      t = .phrase b.made kind (((b.pending.toList.drop mark).head?.map Tree.pos).getD b.pos)
        (((b.pending.toList.drop mark).getLast?.map Tree.stop).getD b.pos)
        (b.pending.toList.drop mark) := by
  rw [finish_pending_toList, Tree.preorderList_append] at h
  simp only [Tree.preorderList, Tree.preorder, List.append_nil, List.mem_append,
    List.mem_cons] at h
  rw [← List.take_append_drop mark b.pending.toList, Tree.preorderList_append, List.mem_append]
  rcases h with h | rfl | h
  · exact .inl (.inl h)
  · exact .inr (by rw [List.take_append_drop])
  · exact .inl (.inr h)

theorem exists_eq_token_of_mem_leaves {n : Nat} {ts : List Token} {t : Tree}
    (h : t ∈ Tree.preorderList (leaves n ts)) : ∃ id, ∃ u ∈ ts, t = .token id u := by
  induction ts generalizing n with
  | nil => cases h
  | cons u us ih =>
      simp only [leaves_cons, Tree.preorderList, Tree.preorder, List.cons_append,
        List.nil_append, List.mem_cons] at h
      rcases h with rfl | h
      · exact ⟨n, u, List.mem_cons_self, rfl⟩
      · obtain ⟨id, v, hv, rfl⟩ := ih h
        exact ⟨id, v, List.mem_cons_of_mem u hv, rfl⟩

theorem flush_flush (b : Builder) : b.flush.flush = b.flush := by
  cases hb : b.ahead with
  | nil =>
      have hf : b.flush.ahead = [] := by rw [flush_nil hb]; exact hb
      rw [flush_nil hf, flush_nil hb]
      simp [leaves]
  | cons l rest =>
      have hf : b.flush.ahead = { l with blank := [] } :: rest := by rw [flush_cons hb]
      rw [flush_cons hf, flush_cons hb]
      simp [leaves]

/-! ### What is in front of the mark -/

/-- The nodes in front of a mark stay as they are. -/
structure Keeps (base : Nat) (b b' : Builder) : Prop where
  base_le : base ≤ b'.pending.size
  take_eq : b'.pending.toList.take base = b.pending.toList.take base

namespace Keeps

theorem trans {b'' : Builder} (h : Keeps base b b') (h' : Keeps base b' b'') : Keeps base b b'' :=
  ⟨h'.base_le, h'.take_eq.trans h.take_eq⟩

theorem mono {low : Nat} (h : Keeps base b b') (hle : low ≤ base) : Keeps low b b' where
  base_le := Nat.le_trans hle h.base_le
  take_eq := by
    have := congrArg (List.take low) h.take_eq
    rwa [List.take_take, List.take_take, Nat.min_eq_left hle] at this

theorem of_append {ts : List Tree} (hle : base ≤ b.pending.size)
    (h : b'.pending.toList = b.pending.toList ++ ts) : Keeps base b b' where
  base_le := by
    rw [← Array.length_toList, h, List.length_append, Array.length_toList]
    omega
  take_eq := by
    rw [h, List.take_append_of_le_length (by simpa using hle)]

theorem finish {mark : Nat} (hle : base ≤ mark) (hmark : mark ≤ b.pending.size)
    (kind : PhraseKind) : Keeps base b (b.finish kind mark) where
  base_le := by
    rw [← Array.length_toList, finish_pending_toList]
    simp
    omega
  take_eq := by
    rw [finish_pending_toList, List.take_append_of_le_length (by simp; omega), List.take_take,
      Nat.min_eq_left hle]

end Keeps

theorem Grows.keeps (h : Grows base found b b') (hle : base ≤ b.pending.size) :
    Keeps base b b' := by
  induction h with
  | refl => exact ⟨hle, rfl⟩
  | trans _ _ ih ih' => exact (ih hle).trans (ih' (ih hle).base_le)
  | advance b =>
      obtain ⟨_, hts⟩ := advance_pending b
      exact .of_append hle hts
  | flush b =>
      obtain ⟨_, hts⟩ := flush_pending b
      exact .of_append hle hts
  | report b p =>
      rw [report_eq]
      exact ⟨hle, rfl⟩
  | finish b kind => exact .finish (Nat.le_refl _) hle kind
  | nested _ _ ih => exact ⟨(ih hle).base_le, (ih hle).take_eq⟩
  | @mark base b _ _ _ ih =>
      obtain ⟨_, hts⟩ := flush_pending b
      exact (Keeps.of_append hle hts).trans
        ((ih (Nat.le_refl _)).mono (Nat.le_trans hle (size_le_flush b)))
  | @list base b b' _ kind _ _ ih =>
      obtain ⟨_, hts⟩ := flush_pending b
      have hbody := ih (size_le_flush b)
      exact ((Keeps.of_append hle hts).trans (hbody.mono hle)).trans
        (.finish hle hbody.base_le kind)
  | emptyList b kind => exact .finish hle (Nat.le_refl _) kind

theorem Grows.moves (h : Grows base found b b') : Moves b b' := by
  induction h with
  | refl => exact .refl
  | trans _ _ ih ih' => exact ih.trans ih'
  | advance b => exact .single (.advance b)
  | flush b => exact .single (.flush b)
  | report b p => exact .single (.report b p)
  | finish b kind => exact .single (.finish b kind _)
  | nested _ _ ih => exact .head (.level _ _) (ih.tail (.level _ _))
  | mark _ ih => exact .head (.flush _) ih
  | list kind _ _ ih => exact .head (.flush _) (ih.tail (.finish _ kind _))
  | emptyList b kind => exact .single (.finish b kind _)

end Builder

end ArrayShapes.Syntax
