import Mathlib.Logic.Relation
import ArrayShapes.Syntax.Builder

/-!
What the grammar does to a builder, step by step. Whatever way a rule takes, it advances, places
blank text, reports problems, finishes phrases and goes up and down in depth; what these moves
preserve holds of every tree that is built. The steps of a rule are moves that it is allowed to make:
it finishes phrases at marks of its own and stays within the depth.
-/

namespace ArrayShapes.Syntax

/-- The nodes of tokens that are placed one after the other, the first one with number `n`. -/
def leaves (n : Nat) (ts : List Token) : List Tree := ts.mapIdx fun i t => .token (n + i) t

theorem leaves_cons (n : Nat) (t : Token) (ts : List Token) :
    leaves n (t :: ts) = .token n t :: leaves (n + 1) ts := by
  simp [leaves, List.mapIdx_cons, Nat.add_assoc, Nat.add_comm 1]

theorem leaves_append (n : Nat) (ts us : List Token) :
    leaves n (ts ++ us) = leaves n ts ++ leaves (n + ts.length) us := by
  simp [leaves, List.mapIdx_append, Nat.add_comm, Nat.add_left_comm]

/-- Tokens that are made one after the other. -/
def Arena.addTokens (a : Arena) (ts : List Token) : Arena := ts.foldl addToken a

@[simp]
theorem Arena.addTokens_nil (a : Arena) : a.addTokens [] = a := rfl

@[simp]
theorem Arena.size_addToken (a : Arena) (t : Token) : (a.addToken t).size = a.size + 1 := by
  simp [addToken, size]

@[simp]
theorem Arena.size_addTokens (a : Arena) (ts : List Token) :
    (a.addTokens ts).size = a.size + ts.length := by
  induction ts generalizing a with
  | nil => rfl
  | cons t ts ih =>
      calc
        _ = (a.addToken t).size + ts.length := ih (a.addToken t)
        _ = _ := by simp [Nat.add_assoc, Nat.add_comm 1]

theorem Arena.addTokens_append (a : Arena) (ts us : List Token) :
    a.addTokens (ts ++ us) = (a.addTokens ts).addTokens us :=
  List.foldl_append

@[simp]
theorem Arena.size_linkTo (parent : Nat) (links : Array Link) (children : List Nat) (index : Nat) :
    (linkTo parent links children index).size = links.size := by
  induction children generalizing links index with
  | nil => rfl
  | cons id ids ih => simp [linkTo, ih]

@[simp]
theorem Arena.size_addPhrase (a : Arena) (children : List Nat) :
    (a.addPhrase children).size = a.size + 1 := by
  simp [addPhrase, size]

namespace Builder

/-! ### Placing tokens -/

theorem placeAll_eq (b : Builder) (ts : List Token) :
    b.placeAll ts =
      { b with
        pending := b.pending ++ (leaves b.made ts).toArray
        arena := b.arena.addTokens ts } := by
  induction ts generalizing b with
  | nil => simp [placeAll, leaves, Arena.addTokens]
  | cons t ts ih =>
      calc
        _ = (b.place t).placeAll ts := rfl
        _ = _ := ih (b.place t)
        _ = _ := by simp [place, made, leaves_cons, Arena.addTokens]

theorem advance_nil {b : Builder} (h : b.ahead = []) : b.advance = b := by
  simp [advance, h]

theorem advance_cons {b : Builder} {l : Lexeme} {rest : List Lexeme} (h : b.ahead = l :: rest) :
    b.advance =
      { b with
        ahead := rest
        left := b.left - 1
        pending := b.pending ++ (leaves b.made (l.blank ++ [l.token])).toArray
        arena := b.arena.addTokens (l.blank ++ [l.token]) } := by
  simp only [advance, h, placeAll_eq, place, made, leaves_append, Arena.addTokens_append,
    Arena.size_addTokens]
  simp [leaves, Arena.addTokens]

theorem flush_nil {b : Builder} (h : b.ahead = []) :
    b.flush =
      { b with
        trailing := []
        pending := b.pending ++ (leaves b.made b.trailing).toArray
        arena := b.arena.addTokens b.trailing } := by
  simp [flush, h, placeAll_eq]

theorem flush_cons {b : Builder} {l : Lexeme} {rest : List Lexeme} (h : b.ahead = l :: rest) :
    b.flush =
      { b with
        ahead := { l with blank := [] } :: rest
        pending := b.pending ++ (leaves b.made l.blank).toArray
        arena := b.arena.addTokens l.blank } := by
  obtain ⟨blank, token, word⟩ := l
  cases blank with
  | nil => simp [flush, h, leaves, Arena.addTokens]; rw [← h]
  | cons t ts => simp [flush, h, placeAll_eq]

theorem report_eq (b : Builder) (p : Problem) :
    b.report p =
      { b with
        diagnostics :=
          if b.lastReport = some b.pos then b.diagnostics
          else b.diagnostics.push ⟨b.pos, b.ahead.head?.elim 0 (·.token.size), p⟩
        lastReport := some b.pos } := by
  by_cases h : b.lastReport = some b.pos
  · simp only [report, if_pos h]
    rw [← h]
  · simp [report, h]

theorem toList_extract_mark (b : Builder) (mark : Nat) :
    (b.pending.extract mark b.pending.size).toList = b.pending.toList.drop mark := by
  simp [List.take_of_length_le]

/-- The nodes above the mark become the children of a new one. -/
theorem finish_pending_toList (b : Builder) (kind : PhraseKind) (mark : Nat) :
    (b.finish kind mark).pending.toList =
      b.pending.toList.take mark ++
        [.phrase b.made kind (((b.pending.toList.drop mark).head?.map Tree.pos).getD b.pos)
          (((b.pending.toList.drop mark).getLast?.map Tree.stop).getD b.pos)
          (b.pending.toList.drop mark)] := by
  simp only [finish, toList_extract_mark]
  simp

theorem finish_arena (b : Builder) (kind : PhraseKind) (mark : Nat) :
    (b.finish kind mark).arena =
      b.arena.addPhrase ((b.pending.toList.drop mark).map Tree.id) := by
  simp only [finish, toList_extract_mark]

/-! ### Moves -/

/-- What one step of the grammar does to a builder, whether it is allowed there or not. -/
inductive Move : Builder → Builder → Prop where
  | advance (b : Builder) : Move b b.advance
  | flush (b : Builder) : Move b b.flush
  | report (b : Builder) (p : Problem) : Move b (b.report p)
  | finish (b : Builder) (kind : PhraseKind) (mark : Nat) : Move b (b.finish kind mark)
  | level (b : Builder) (depth : Nat) : Move b { b with depth }

/-- Any number of moves. -/
def Moves : Builder → Builder → Prop := Relation.ReflTransGen Move

/-- What every move preserves is preserved by any number of them. -/
theorem Moves.preserves {P : Builder → Prop} {b b' : Builder} (h : Moves b b')
    (hmove : ∀ {b b'}, Move b b' → P b → P b') (hb : P b) : P b' := by
  induction h with
  | refl => exact hb
  | tail _ hm ih => exact hmove hm ih

/-! ### Steps -/

/-- Where a phrase finished at `mark` would start. -/
def phraseStart (b : Builder) (mark : Nat) : Nat :=
  ((b.pending.extract mark b.pending.size).toList.head?.map Tree.pos).getD b.pos

/-- One step of the grammar, which leaves the first `base` pending nodes alone. An error phrase is
finished only where a problem has just been reported. -/
inductive Step (base : Nat) : Builder → Builder → Prop where
  | advance (b : Builder) : Step base b b.advance
  | flush (b : Builder) : Step base b b.flush
  | report (b : Builder) (p : Problem) : Step base b (b.report p)
  | finish (b : Builder) {kind : PhraseKind} {mark : Nat} (above : base ≤ mark)
      (within : mark ≤ b.pending.size)
      (reported : kind = .error → b.lastReport = some (b.phraseStart mark)) :
      Step base b (b.finish kind mark)
  | descend (b : Builder) (room : b.depth < maxDepth) :
      Step base b { b with depth := b.depth + 1 }
  | ascend (b : Builder) (deep : 0 < b.depth) : Step base b { b with depth := b.depth - 1 }

/-- A builder as the grammar meets it, when it may touch the nodes from `base` on. -/
structure Ready (base : Nat) (b : Builder) : Prop where
  base_le : base ≤ b.pending.size
  left_eq : b.left = b.ahead.length

/-- What a rule does from start to end: any number of steps, and as deep in the end as before. -/
structure Built (base : Nat) (b b' : Builder) : Prop where
  steps : Relation.ReflTransGen (Step base) b b'
  depth_eq : b'.depth = b.depth

variable {base : Nat} {b b' : Builder}

namespace Ready

variable (h : Ready base b)
include h

theorem left_pos_of_ahead (ha : b.ahead ≠ []) : 0 < b.left := by
  rw [h.left_eq]
  exact List.length_pos_iff.2 ha

theorem left_pos_of_kind {k : TokenKind} (hk : b.kind? = some k) : 0 < b.left :=
  h.left_pos_of_ahead fun ha => by simp [kind?, ha] at hk

theorem left_pos_of_isAt {k : TokenKind} (hk : b.isAt k = true) : 0 < b.left :=
  h.left_pos_of_kind (eq_of_beq hk)

theorem left_pos_of_isAtAny {ks : List TokenKind} (hk : b.isAtAny ks = true) : 0 < b.left :=
  h.left_pos_of_ahead fun ha => by simp [isAtAny, kind?, ha] at hk

theorem left_pos_of_isKeyword {w : String} (hw : b.isKeyword w = true) : 0 < b.left :=
  h.left_pos_of_ahead fun ha => by simp [isKeyword, word?, ha] at hw

theorem left_pos_of_isAnyKeyword {ws : List String} (hw : b.isAnyKeyword ws = true) :
    0 < b.left :=
  h.left_pos_of_ahead fun ha => by simp [isAnyKeyword, word?, ha] at hw

theorem left_pos_of_not_atEnd {c : Bool} (hb : (!b.atEnd && c) = true) : 0 < b.left :=
  h.left_pos_of_ahead fun ha => by simp [atEnd, ha] at hb

theorem advance_left_le : b.advance.left ≤ b.left - 1 := by
  cases hb : b.ahead with
  | nil => rw [advance_nil hb]; simp [h.left_eq, hb]
  | cons l rest => exact Nat.le_of_eq (congrArg left (advance_cons hb))

end Ready

theorem flush_left (b : Builder) : b.flush.left = b.left := by
  cases hb : b.ahead with
  | nil => rw [flush_nil hb]
  | cons l rest => rw [flush_cons hb]

theorem flush_pos (b : Builder) : b.flush.pos = b.pos := by
  cases hb : b.ahead with
  | nil => rw [flush_nil hb]; rfl
  | cons l rest => rw [flush_cons hb]; simp [pos, hb]

theorem flush_word? (b : Builder) : b.flush.word? = b.word? := by
  cases hb : b.ahead with
  | nil => rw [flush_nil hb]; rfl
  | cons l rest => rw [flush_cons hb]; simp [word?, hb]

theorem phraseStart_size (b : Builder) : b.phraseStart b.pending.size = b.pos := by
  simp [phraseStart]

/-- A phrase around the next token alone starts where the token starts. -/
theorem phraseStart_advance (b : Builder) :
    b.flush.advance.phraseStart b.flush.pending.size = b.pos := by
  cases hb : b.ahead with
  | nil =>
      have hf : b.flush.ahead = [] := by rw [flush_nil hb]; exact hb
      rw [advance_nil hf, phraseStart_size, flush_pos]
  | cons l rest =>
      have hf : b.flush.ahead = { l with blank := [] } :: rest := by rw [flush_cons hb]
      rw [advance_cons hf]
      simp [phraseStart, leaves, Tree.pos, pos, hb]

theorem lastReport_report (b : Builder) (p : Problem) : (b.report p).lastReport = some b.pos := by
  rw [report_eq]

theorem left_report (b : Builder) (p : Problem) : (b.report p).left = b.left := by
  rw [report_eq]

theorem pos_report (b : Builder) (p : Problem) : (b.report p).pos = b.pos := by
  rw [report_eq]; rfl

theorem lastReport_flush (b : Builder) : b.flush.lastReport = b.lastReport := by
  cases hb : b.ahead with
  | nil => rw [flush_nil hb]
  | cons l rest => rw [flush_cons hb]

theorem lastReport_advance (b : Builder) : b.advance.lastReport = b.lastReport := by
  cases hb : b.ahead with
  | nil => rw [advance_nil hb]
  | cons l rest => rw [advance_cons hb]

theorem Step.mono {low : Nat} (h : Step base b b') (hle : low ≤ base) : Step low b b' := by
  cases h with
  | advance => exact .advance b
  | flush => exact .flush b
  | report p => exact .report b p
  | finish above within reported => exact .finish b (Nat.le_trans hle above) within reported
  | descend room => exact .descend b room
  | ascend deep => exact .ascend b deep

theorem Step.move (h : Step base b b') : Move b b' := by
  cases h with
  | advance => exact .advance b
  | flush => exact .flush b
  | report p => exact .report b p
  | finish => exact .finish b _ _
  | descend | ascend => exact .level b _

theorem Move.left_le (h : Move b b') : b'.left ≤ b.left := by
  cases h with
  | advance =>
      cases hb : b.ahead with
      | nil => exact Nat.le_of_eq (congrArg left (advance_nil hb))
      | cons l rest => rw [advance_cons hb]; exact Nat.sub_le ..
  | flush => exact Nat.le_of_eq (flush_left b)
  | report p => exact Nat.le_of_eq (left_report b p)
  | finish | level => exact Nat.le_refl _

theorem Move.left_eq (h : Move b b') (hleft : b.left = b.ahead.length) :
    b'.left = b'.ahead.length := by
  cases h with
  | advance =>
      cases hb : b.ahead with
      | nil => rwa [advance_nil hb]
      | cons l rest => rw [advance_cons hb]; simp [hleft, hb]
  | flush =>
      cases hb : b.ahead with
      | nil => rwa [flush_nil hb]
      | cons l rest => rw [flush_cons hb]; simp [hleft, hb]
  | report p => rwa [report_eq]
  | finish | level => exact hleft

theorem Step.ready (h : Step base b b') (hr : Ready base b) : Ready base b' := by
  refine ⟨?_, h.move.left_eq hr.left_eq⟩
  have hbase := hr.base_le
  cases h with
  | advance =>
      cases hb : b.ahead with
      | nil => rwa [advance_nil hb]
      | cons l rest => rw [advance_cons hb]; simp; omega
  | flush =>
      cases hb : b.ahead with
      | nil => rw [flush_nil hb]; simp; omega
      | cons l rest => rw [flush_cons hb]; simp; omega
  | report p => rwa [report_eq]
  | finish above within => simp [Builder.finish]; omega
  | descend | ascend => exact hbase

/-! ### From start to end -/

namespace Built

theorem refl : Built base b b := ⟨.refl, rfl⟩

theorem trans {b'' : Builder} (h : Built base b b') (h' : Built base b' b'') : Built base b b'' :=
  ⟨h.steps.trans h'.steps, h'.depth_eq.trans h.depth_eq⟩

theorem mono {low : Nat} (h : Built base b b') (hle : low ≤ base) : Built low b b' :=
  ⟨h.steps.lift id fun _ _ hs => Step.mono hs hle, h.depth_eq⟩

/-- What every step preserves is preserved from start to end. -/
theorem preserves {P : Builder → Prop} (h : Built base b b')
    (hstep : ∀ {b b'}, Step base b b' → P b → P b') (hb : P b) : P b' := by
  obtain ⟨steps, -⟩ := h
  induction steps with
  | refl => exact hb
  | tail _ hs ih => exact hstep hs ih

theorem moves (h : Built base b b') : Moves b b' :=
  Relation.ReflTransGen.mono (fun _ _ => Step.move) _ _ h.steps

theorem left_le (h : Built base b b') : b'.left ≤ b.left :=
  h.moves.preserves (P := fun b' => b'.left ≤ b.left) (fun hm => Nat.le_trans hm.left_le)
    (Nat.le_refl _)

theorem ready (h : Built base b b') (hr : Ready base b) : Ready base b' :=
  h.preserves Step.ready hr

theorem advance (b : Builder) : Built base b b.advance where
  steps := .single (.advance b)
  depth_eq := by
    cases hb : b.ahead with
    | nil => rw [advance_nil hb]
    | cons l rest => rw [advance_cons hb]

theorem flush (b : Builder) : Built base b b.flush where
  steps := .single (.flush b)
  depth_eq := by
    cases hb : b.ahead with
    | nil => rw [flush_nil hb]
    | cons l rest => rw [flush_cons hb]

theorem report (b : Builder) (p : Problem) : Built base b (b.report p) where
  steps := .single (.report b p)
  depth_eq := by rw [report_eq]

theorem finish {kind : PhraseKind} {mark : Nat} (above : base ≤ mark)
    (within : mark ≤ b.pending.size)
    (reported : kind = .error → b.lastReport = some (b.phraseStart mark)) :
    Built base b (b.finish kind mark) :=
  ⟨.single (.finish b above within reported), rfl⟩

/-- A problem with the next token, and the token as an error. -/
theorem skip (hr : Ready base b) (p : Problem) :
    Built base b ((b.report p).flush.advance.finish .error (b.report p).flush.pending.size) := by
  have hflush : Built base b (b.report p).flush := (Built.report b p).trans (.flush _)
  have hadv : Built (b.report p).flush.pending.size (b.report p).flush _ := .advance _
  have hready := hflush.ready hr
  refine (hflush.trans (.advance _)).trans (.finish hready.base_le ?_ fun _ => ?_)
  · exact (hadv.ready ⟨Nat.le_refl _, hready.left_eq⟩).base_le
  · rw [phraseStart_advance, lastReport_advance, lastReport_flush, lastReport_report, pos_report]

/-- A problem with the next token, and an empty error in front of it. -/
theorem missing (hr : Ready base b) (p : Problem) :
    Built base b ((b.report p).flush.finish .error (b.report p).flush.pending.size) := by
  have hflush : Built base b (b.report p).flush := (Built.report b p).trans (.flush _)
  refine hflush.trans (.finish (hflush.ready hr).base_le (Nat.le_refl _) fun _ => ?_)
  rw [phraseStart_size, flush_pos, lastReport_flush, lastReport_report, pos_report]

/-- Down one level, there whatever is done, and up again. -/
theorem nested (room : b.depth < maxDepth) (h : Built base { b with depth := b.depth + 1 } b') :
    Built base b { b' with depth := b'.depth - 1 } where
  steps :=
    have deep : 0 < b'.depth := by rw [h.depth_eq]; exact Nat.succ_pos _
    .head (.descend b room) (h.steps.tail (.ascend b' deep))
  depth_eq := by simp [h.depth_eq]

end Built

end Builder

end ArrayShapes.Syntax
