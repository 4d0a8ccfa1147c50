import ArrayShapes.Proofs.Syntax.Scene
import ArrayShapes.Proofs.Syntax.Span

/-!
Where the nodes of a forest stand while it grows. A phrase is finished at a mark in front of which no
blank text waits, so it starts where its tokens start; only a list may be finished while blank text
waits in front of it, and then there is nothing in it.
-/

namespace ArrayShapes.Syntax

/-- The blank text that starts at byte `offset`, up to the next token that is not blank. -/
def blankFrom (all : List Token) (offset : Nat) : List Token :=
  (all.dropWhile (·.pos < offset)).takeWhile (·.isTrivia)

/-- The blank text from byte `lo` on ends at byte `hi`. -/
def Blank (all : List Token) (lo hi : Nat) : Prop := Tiles lo hi (blankFrom all lo)

/-- A node starts and ends at offsets of `V`, its children have smaller numbers and do not end behind
it. -/
structure Tree.Fits (V : Nat → Prop) (t : Tree) : Prop where
  pos : V t.pos
  stop : V t.stop
  children : ∀ c ∈ t.children, c.id < t.id ∧ c.stop ≤ t.stop

namespace Builder

variable {all ts : List Token} {base : Nat} {b b' : Builder} {found : List Notice}

/-! ### Blank text that waits -/

/-- The blank text in front of the next token, or at the end of the source. -/
def blankAhead (b : Builder) : List Token :=
  match b.ahead with
  | [] => b.trailing
  | l :: _ => l.blank

/-- The forest and the tokens ahead are those of the source. -/
structure Sourced (all : List Token) (b : Builder) : Prop where
  tidy : b.Tidy
  lossless : b.Lossless all
  extent : b.Extent

theorem Move.sourced (h : Move b b') (hb : Sourced all b) : Sourced all b' :=
  ⟨h.tidy hb.tidy, h.lossless hb.lossless, h.extent hb.extent⟩

theorem Extent.tiles_blankAhead (h : Extent b) : Tiles b.front b.pos b.blankAhead := by
  have htiles := h.tiles
  cases hb : b.ahead with
  | nil =>
      simp only [unplaced, hb, List.flatMap_nil, List.nil_append] at htiles
      simpa [blankAhead, pos, hb] using htiles
  | cons l rest =>
      simp only [unplaced, hb, List.flatMap_cons, Lexeme.tokens, List.append_assoc] at htiles
      obtain ⟨mid, hblank, hmid, -⟩ := htiles.of_append
      simpa [blankAhead, pos, hb, hmid] using hblank

theorem Tidy.takeWhile_unplaced (h : b.Tidy) :
    b.unplaced.takeWhile (·.isTrivia) = b.blankAhead := by
  cases hb : b.ahead with
  | nil =>
      simp only [unplaced, blankAhead, hb, List.flatMap_nil, List.nil_append]
      rw [← List.append_nil b.trailing, List.takeWhile_append_of_pos h.trailing]
      rfl
  | cons l rest =>
      have hl := h.ahead l (by rw [hb]; exact List.mem_cons_self)
      simp only [unplaced, blankAhead, hb, List.flatMap_cons, Lexeme.tokens, List.append_assoc]
      rw [List.takeWhile_append_of_pos hl.blank]
      simp [hl.token]

theorem Sourced.blank (h : Sourced all b)
    (htiles : Tiles 0 b.front (Tree.tokensList b.pending.toList)) : Blank all b.front b.pos := by
  have hdrop : b.unplaced.dropWhile (·.pos < b.front) = b.unplaced := by
    cases hunplaced : b.unplaced with
    | nil => rfl
    | cons t ts => simp [front, hunplaced]
  have hblank : blankFrom all b.front = b.blankAhead := by
    rw [blankFrom, ← h.lossless.tokens_eq, List.dropWhile_append_of_pos, hdrop,
      h.tidy.takeWhile_unplaced]
    intro t ht
    exact decide_eq_true (htiles.pos_lt_of_mem ht)
  rw [Blank, hblank]
  exact h.extent.tiles_blankAhead

theorem Placed.tiles (hp : Placed ts b b') (h : Extent b) : Tiles b.front b'.front ts := by
  obtain ⟨mid, hts, hrest⟩ : ∃ mid, Tiles b.front mid ts ∧ Tiles mid b.sourceEnd b'.unplaced :=
    Tiles.of_append (hp.unplaced ▸ h.tiles)
  have hmid : b'.front = mid := by rw [front, hp.sourceEnd]; exact hrest.front_eq
  rwa [hmid]

/-- After blank text has been placed there is none in front of the next token. -/
theorem flush_front (b : Builder) : b.flush.front = b.flush.pos := by
  cases hb : b.ahead with
  | nil => rw [flush_nil hb]; simp [front, unplaced, pos, hb]
  | cons l rest => rw [flush_cons hb]; simp [front, unplaced, pos, Lexeme.tokens]

/-! ### Starts of phrases -/

/-- A phrase that is finished at the mark `base` starts where the nodes in front of the mark end. -/
def Rooted (all : List Token) (base : Nat) (b : Builder) : Prop :=
  ∃ start, Tree.FillsList (Blank all) 0 start (b.pending.toList.take base) ∧
    Tree.FillsList (Blank all) start b.front (b.pending.toList.drop base) ∧
    ((b.pending.toList.drop base).head?.map Tree.pos).getD b.pos = start

namespace Rooted

theorem fills (h : Rooted all base b) :
    Tree.FillsList (Blank all) 0 b.front b.pending.toList := by
  obtain ⟨start, hlow, hhigh, -⟩ := h
  rw [← List.take_append_drop base b.pending.toList]
  exact Tree.fillsList_append.2 ⟨start, hlow, hhigh⟩

theorem tiles (h : Rooted all base b) : Tiles 0 b.front (Tree.tokensList b.pending.toList) :=
  Tree.FillsList.tiles _ h.fills

/-- Nodes that come behind the others. Only a phrase that has nothing in it yet can start with them,
and then no blank text waits. -/
theorem append {us : List Tree} (h : Rooted all base b) (hle : base ≤ b.pending.size)
    (hpending : b'.pending.toList = b.pending.toList ++ us)
    (hfills : Tree.FillsList (Blank all) b.front b'.front us)
    (hfirst : b.pos = b.front → (us.head?.map Tree.pos).getD b'.pos = b.front) :
    Rooted all base b' := by
  obtain ⟨start, hlow, hhigh, hstart⟩ := h
  have hle' : base ≤ b.pending.toList.length := by simpa using hle
  rw [Rooted, hpending, List.take_append_of_le_length hle', List.drop_append_of_le_length hle']
  refine ⟨start, hlow, Tree.fillsList_append.2 ⟨_, hhigh, hfills⟩, ?_⟩
  cases hdrop : b.pending.toList.drop base with
  | cons t rest =>
      rw [hdrop] at hstart
      exact hstart
  | nil =>
      rw [hdrop] at hstart hhigh
      cases hhigh
      exact hfirst hstart

theorem of_placed (h : Rooted all base b) (hle : base ≤ b.pending.size) (hs : Extent b)
    (hp : Placed ts b b') : Rooted all base b' := by
  have htiles := hp.tiles hs
  apply h.append hle hp.pending (Tree.fillsList_leaves _ htiles)
  intro hfront
  cases ts with
  | nil => exact (hp.pos rfl).trans hfront
  | cons u us =>
      rw [leaves_cons]
      exact htiles.1

theorem finish (h : Rooted all base b) (hle : base ≤ b.pending.size) (hs : Sourced all b)
    (kind : PhraseKind) : Rooted all base (b.finish kind base) := by
  have hblank := hs.blank h.tiles
  obtain ⟨start, hlow, hhigh, hstart⟩ := h
  have hlen : (b.pending.toList.take base).length = base :=
    List.length_take_of_le (by simpa using hle)
  refine ⟨start, ?_, ?_, ?_⟩
  · rwa [finish_pending_toList, List.take_left' hlen]
  · rw [finish_pending_toList, List.drop_left' hlen, Tree.fillsList_singleton]
    refine ⟨hhigh, ?_, ?_⟩
    · cases (b.pending.toList.drop base) <;> rfl
    · split
      · next hempty =>
          rw [show b.pending.toList.drop base = [] from Tree.children_of_isEmptyList hempty]
            at hhigh ⊢
          cases hhigh
          exact hblank
      · exact hstart
  · rw [finish_pending_toList, List.drop_left' hlen]
    exact hstart

/-- Behind a new mark there is nothing yet, and no blank text waits. -/
theorem mark (h : Rooted all base b.flush) : Rooted all b.flush.pending.size b.flush := by
  have htake : b.flush.pending.toList.take b.flush.pending.size = b.flush.pending.toList :=
    List.take_of_length_le (by simp)
  have hdrop : b.flush.pending.toList.drop b.flush.pending.size = [] :=
    List.drop_of_length_le (by simp)
  refine ⟨b.flush.front, ?_, ?_, ?_⟩
  · rw [htake]
    exact h.fills
  · rw [hdrop]
    rfl
  · rw [hdrop]
    exact (flush_front b).symm

/-- Behind the mark of a list there is the blank text in front of it, if it has parts. -/
theorem list (h : Rooted all base b) (hs : Extent b) : Rooted all b.pending.size b.flush := by
  obtain ⟨ts, hp⟩ := flush_placed b
  have htiles := hp.tiles hs
  have hlen : b.pending.toList.length = b.pending.size := by simp
  refine ⟨b.front, ?_, ?_, ?_⟩
  · rw [hp.pending, List.take_left' hlen]
    exact h.fills
  · rw [hp.pending, List.drop_left' hlen]
    exact Tree.fillsList_leaves _ htiles
  · rw [hp.pending, List.drop_left' hlen]
    cases ts with
    | nil => exact (flush_front b).symm.trans htiles.symm
    | cons u us =>
        rw [leaves_cons]
        exact htiles.1

/-- What has been done behind a later mark, seen from an earlier one. -/
theorem unmark (h : Rooted all base b) (hle : base ≤ b.pending.size)
    (h' : Rooted all b.pending.size b') (hkeeps : Keeps b.pending.size b b') :
    Rooted all base b' := by
  obtain ⟨mid, hbefore, hafter, hmid⟩ := h'
  have hkeep : b'.pending.toList.take b.pending.size = b.pending.toList := by
    rw [hkeeps.take_eq]
    exact List.take_of_length_le (by simp)
  have hsplit := List.take_append_drop b.pending.size b'.pending.toList
  rw [hkeep] at hbefore hsplit
  -- the nodes in front of the later mark end where they did before
  cases hbefore.hi_unique h.fills
  exact h.append hle hsplit.symm hafter fun _ => hmid

/-- An empty list stands in front of the next token, behind the blank text that waits. -/
theorem emptyList (h : Rooted all base b) (hle : base ≤ b.pending.size) (hs : Sourced all b)
    {kind : PhraseKind} (hkind : kind.isList = true) :
    Rooted all base (b.finish kind b.pending.size) := by
  have hpending : (b.finish kind b.pending.size).pending.toList =
      b.pending.toList ++ [.phrase b.made kind b.pos b.pos []] := by
    rw [finish_pending_toList, List.take_of_length_le (by simp), List.drop_of_length_le (by simp)]
    rfl
  have hempty : Tree.Fills (Blank all) b.front b.front (.phrase b.made kind b.pos b.pos []) := by
    have hlist : (Tree.phrase b.made kind b.pos b.pos []).isEmptyList = true := hkind
    simp only [Tree.Fills, Tree.FillsList, hlist, if_true]
    exact ⟨trivial, rfl, hs.blank h.tiles⟩
  exact h.append hle hpending (Tree.fillsList_singleton.2 hempty) id

end Rooted

/-- Marks and phrases are nested, so wherever a phrase is finished it starts with its tokens. -/
theorem Grows.rooted (h : Grows base found b b') (hs : Sourced all b)
    (hle : base ≤ b.pending.size) (hr : Rooted all base b) : Rooted all base b' := by
  induction h with
  | refl => exact hr
  | trans first _ ih ih' =>
      exact ih' (first.moves.preserves Move.sourced hs) (first.keeps hle).base_le (ih hs hle hr)
  | advance b =>
      obtain ⟨ts, hp⟩ := advance_placed b
      exact hr.of_placed hle hs.extent hp
  | flush b =>
      obtain ⟨ts, hp⟩ := flush_placed b
      exact hr.of_placed hle hs.extent hp
  | report b p =>
      rw [report_eq]
      exact hr
  | finish b kind => exact hr.finish hle hs kind
  | nested _ _ ih => exact ih ((Move.level _ _).sourced hs) hle hr
  | @mark base b b' _ body ih =>
      -- the body works behind a mark of its own, in front of which no blank text waits
      obtain ⟨ts, hp⟩ := flush_placed b
      have hflush : Rooted all base b.flush := hr.of_placed hle hs.extent hp
      have hafter := ih ((Move.flush b).sourced hs) (Nat.le_refl _) hflush.mark
      exact hflush.unmark (Nat.le_trans hle (size_le_flush b)) hafter
        (body.keeps (Nat.le_refl _))
  | @list base b b' _ kind isList body ih =>
      obtain ⟨ts, hp⟩ := flush_placed b
      have hkeeps := body.keeps (size_le_flush b)
      have hflush := (Move.flush b).sourced hs
      have hafter := ih hflush (size_le_flush b) (hr.list hs.extent)
      exact hr.unmark hle
        (hafter.finish hkeeps.base_le (body.moves.preserves Move.sourced hflush) kind)
        (((Keeps.of_append (Nat.le_refl _) hp.pending).trans hkeeps).trans
          (.finish (Nat.le_refl _) hkeeps.base_le kind))
  | emptyList b kind isList => exact hr.emptyList hle hs isList

/-! ### Ends of phrases -/

/-- Where the last node ends. -/
def lastStop (b : Builder) : Nat := (b.pending.toList.getLast?.map Tree.stop).getD b.pos

/-- The nodes so far stand at the offsets of `V`, and none ends behind the last of them. -/
structure Fitting (all : List Token) (V : Nat → Prop) (b : Builder) : Prop where
  sourced : Sourced all b
  sourceEnd : V b.sourceEnd
  nodes : ∀ t ∈ Tree.preorderList b.pending.toList, t.Fits V
  stop_le : ∀ t ∈ b.pending.toList, t.stop ≤ b.lastStop
  lastStop_le : b.lastStop ≤ b.pos

theorem Sourced.pos_valid {V : Nat → Prop} (h : Sourced all b)
    (hall : ∀ t ∈ all, V t.pos ∧ V t.stop) (hend : V b.sourceEnd) : V b.pos := by
  cases hb : b.ahead with
  | nil => simpa [pos, hb] using hend
  | cons l rest =>
      have hmem : l.token ∈ all := by
        rw [← h.lossless.tokens_eq]
        simp [unplaced, hb, Lexeme.tokens]
      simpa [pos, hb] using (hall l.token hmem).1

theorem pos_le_advance_front (h : Extent b) (hb : b.ahead ≠ []) : b.pos ≤ b.advance.front := by
  obtain ⟨l, rest, hahead⟩ := List.exists_cons_of_ne_nil hb
  obtain ⟨ts, hp⟩ := advance_placed b
  have hadvance : b.advance.unplaced = rest.flatMap Lexeme.tokens ++ b.trailing := by
    rw [advance_cons hahead]
    rfl
  have hmem : l.token ∈ ts := by
    have hts := hp.unplaced
    rw [hadvance, unplaced, hahead, List.flatMap_cons, List.append_assoc] at hts
    rw [← List.append_cancel_right hts]
    simp [Lexeme.tokens]
  have hstop := (hp.tiles h).stop_le_of_mem hmem
  have hpos : b.pos = l.token.pos := by simp [pos, hahead]
  exact hpos ▸ Nat.le_trans (Nat.le_add_right _ _) hstop

namespace Fitting

variable {V : Nat → Prop}

theorem of_placed (h : Fitting all V b) (hall : ∀ t ∈ all, V t.pos ∧ V t.stop)
    (hp : Placed ts b b') (hs : Sourced all b') (hfront : b.pos ≤ b'.front) :
    Fitting all V b' := by
  have htiles := hp.tiles h.sourced.extent
  have hnodes : ∀ t ∈ Tree.preorderList b'.pending.toList, t.Fits V := by
    intro t ht
    rw [hp.pending, Tree.preorderList_append] at ht
    rcases List.mem_append.1 ht with ht | ht
    · exact h.nodes t ht
    · obtain ⟨id, u, hu, rfl⟩ := exists_eq_token_of_mem_leaves ht
      have hmem : u ∈ all := by
        rw [← h.sourced.lossless.tokens_eq, hp.unplaced]
        simp [hu]
      exact ⟨(hall u hmem).1, (hall u hmem).2, by simp [Tree.children]⟩
  have hend : V b'.sourceEnd := hp.sourceEnd ▸ h.sourceEnd
  cases hlast : ts.getLast? with
  | none =>
      cases List.getLast?_eq_none_iff.1 hlast
      have hpending : b'.pending.toList = b.pending.toList := by
        rw [hp.pending]
        exact List.append_nil _
      have hsame : b'.lastStop = b.lastStop := by rw [lastStop, lastStop, hpending, hp.pos rfl]
      refine ⟨hs, hend, hnodes, ?_, ?_⟩
      · rw [hpending, hsame]
        exact h.stop_le
      · rw [hsame, hp.pos rfl]
        exact h.lastStop_le
  | some u =>
      -- the last of the tokens ends where the next one that waits starts
      have hsame : b'.lastStop = b'.front := by
        rw [lastStop, hp.pending, List.getLast?_append, leaves, List.getLast?_mapIdx, hlast]
        exact htiles.stop_of_getLast? hlast
      refine ⟨hs, hend, hnodes, ?_, hsame ▸ hs.extent.tiles_blankAhead.le⟩
      intro t ht
      rw [hsame]
      rw [hp.pending] at ht
      rcases List.mem_append.1 ht with ht | ht
      · exact Nat.le_trans (h.stop_le t ht) (Nat.le_trans h.lastStop_le hfront)
      · obtain ⟨id, v, hv, rfl⟩ := exists_eq_token_of_mem_leaves (Tree.mem_preorderList_of_mem ht)
        exact htiles.stop_le_of_mem hv

theorem finish (h : Fitting all V b) (hall : ∀ t ∈ all, V t.pos ∧ V t.stop) (kind : PhraseKind)
    (mark : Nat) : Fitting all V (b.finish kind mark) := by
  have hpos : V b.pos := h.sourced.pos_valid hall h.sourceEnd
  have hmem : ∀ t ∈ b.pending.toList.drop mark, t ∈ Tree.preorderList b.pending.toList :=
    fun t ht => Tree.mem_preorderList_of_mem (List.mem_of_mem_drop ht)
  -- the new phrase ends with the last node, or else it is empty and stands behind it
  obtain ⟨hstop, hle, hlastle⟩ :
      V (((b.pending.toList.drop mark).getLast?.map Tree.stop).getD b.pos) ∧
      b.lastStop ≤ ((b.pending.toList.drop mark).getLast?.map Tree.stop).getD b.pos ∧
      ((b.pending.toList.drop mark).getLast?.map Tree.stop).getD b.pos ≤ b.pos := by
    cases hlast : (b.pending.toList.drop mark).getLast? with
    | none => exact ⟨hpos, h.lastStop_le, Nat.le_refl _⟩
    | some u =>
        have hsame : b.lastStop = u.stop := by
          rw [lastStop, ← List.take_append_drop mark b.pending.toList, List.getLast?_append, hlast]
          rfl
        exact ⟨(h.nodes u (hmem u (List.mem_of_getLast? hlast))).stop, Nat.le_of_eq hsame,
          Nat.le_trans (Nat.le_of_eq hsame.symm) h.lastStop_le⟩
  have hstart : V (((b.pending.toList.drop mark).head?.map Tree.pos).getD b.pos) := by
    cases hhead : (b.pending.toList.drop mark).head? with
    | none => exact hpos
    | some u => exact (h.nodes u (hmem u (List.mem_of_head? hhead))).pos
  have hlast : (b.finish kind mark).lastStop =
      ((b.pending.toList.drop mark).getLast?.map Tree.stop).getD b.pos := by
    rw [lastStop, finish_pending_toList, List.getLast?_concat]
    rfl
  refine ⟨(Move.finish b kind mark).sourced h.sourced, h.sourceEnd, ?_, ?_, hlast ▸ hlastle⟩
  · intro t ht
    rcases mem_preorderList_finish ht with ht | rfl
    · exact h.nodes t ht
    · refine ⟨hstart, hstop, fun c hc => ⟨?_, ?_⟩⟩
      · have hid := List.mem_map_of_mem (f := Tree.id) (hmem c hc)
        exact List.mem_range.1 (h.sourced.lossless.numbers.mem_iff.1 hid)
      · exact Nat.le_trans (h.stop_le c (List.mem_of_mem_drop hc)) hle
  · intro t ht
    rw [finish_pending_toList] at ht
    rw [hlast]
    rcases List.mem_append.1 ht with ht | ht
    · exact Nat.le_trans (h.stop_le t (List.mem_of_mem_take ht)) hle
    · cases List.mem_singleton.1 ht
      exact Nat.le_refl _

end Fitting

theorem Move.fitting {V : Nat → Prop} (h : Move b b') (hall : ∀ t ∈ all, V t.pos ∧ V t.stop)
    (hb : Fitting all V b) : Fitting all V b' := by
  have hs := h.sourced hb.sourced
  cases h with
  | advance =>
      by_cases hahead : b.ahead = []
      · rwa [advance_nil hahead]
      · obtain ⟨ts, hp⟩ := advance_placed b
        exact hb.of_placed hall hp hs (pos_le_advance_front hb.sourced.extent hahead)
  | flush =>
      obtain ⟨ts, hp⟩ := flush_placed b
      exact hb.of_placed hall hp hs (Nat.le_of_eq ((flush_pos b).symm.trans (flush_front b).symm))
  | report p =>
      rw [report_eq] at hs ⊢
      exact ⟨hs, hb.sourceEnd, hb.nodes, hb.stop_le, hb.lastStop_le⟩
  | finish kind mark => exact hb.finish hall kind mark
  | level => exact ⟨hs, hb.sourceEnd, hb.nodes, hb.stop_le, hb.lastStop_le⟩

end Builder

end ArrayShapes.Syntax
