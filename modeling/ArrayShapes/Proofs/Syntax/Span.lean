import ArrayShapes.Proofs.Syntax.Growth

/-!
Where the nodes of a tree stand. The tokens below a node fill the source from one offset to another.
The node starts and ends there too, but for lists with nothing in them: these stand in front of the
next token that is not blank, and the blank text before that token comes after them in the tree.
-/

namespace ArrayShapes.Syntax.Tree

/-- A list with nothing in it. -/
def isEmptyList : Tree → Bool
  | .phrase _ kind _ _ [] => kind.isList
  | _ => false

theorem children_of_isEmptyList {t : Tree} (h : t.isEmptyList = true) : t.children = [] := by
  cases t with
  | token => rfl
  | phrase id kind pos stop cs =>
      cases cs with
      | nil => rfl
      | cons => cases h

mutual

/-- Whether the last node below the tree, or the tree itself, is an empty list. -/
def endsOpen : Tree → Bool
  | .token .. => false
  | .phrase _ kind _ _ cs => endsOpenList kind.isList cs

/-- The same for trees one after the other; `before` tells how it is in front of them. -/
def endsOpenList (before : Bool) : List Tree → Bool
  | [] => before
  | t :: ts => endsOpenList t.endsOpen ts

end

mutual

/-- The tokens of a tree fill the source from byte `lo` to byte `hi`, where `blank` tells between which
offsets there is blank text only. A phrase starts with its tokens, unless it is an empty list, and ends
with its last child. -/
def Fills (blank : Nat → Nat → Prop) (lo hi : Nat) : Tree → Prop
  | .token _ t => Tiles lo hi [t]
  | .phrase id kind pos stop cs =>
    FillsList blank lo hi cs ∧ stop = (cs.getLast?.map Tree.stop).getD pos ∧
      if isEmptyList (.phrase id kind pos stop cs) then blank lo pos else pos = lo

def FillsList (blank : Nat → Nat → Prop) (lo hi : Nat) : List Tree → Prop
  | [] => lo = hi
  | t :: ts => ∃ mid, Fills blank lo mid t ∧ FillsList blank mid hi ts

end

variable {blank : Nat → Nat → Prop} {lo mid hi : Nat} {t : Tree} {ts us : List Tree}

theorem fillsList_append :
    FillsList blank lo hi (ts ++ us) ↔ ∃ mid, FillsList blank lo mid ts ∧ FillsList blank mid hi us := by
  induction ts generalizing lo with
  | nil => simp [FillsList]
  | cons t ts ih =>
      constructor
      · rintro ⟨m, ht, hrest⟩
        obtain ⟨mid, hts, hus⟩ := ih.1 hrest
        exact ⟨mid, ⟨m, ht, hts⟩, hus⟩
      · rintro ⟨mid, ⟨m, ht, hts⟩, hus⟩
        exact ⟨m, ht, ih.2 ⟨mid, hts, hus⟩⟩

theorem fillsList_singleton : FillsList blank lo hi [t] ↔ Fills blank lo hi t := by
  constructor
  · rintro ⟨mid, ht, rfl⟩
    exact ht
  · intro ht
    exact ⟨hi, ht, rfl⟩

theorem fillsList_leaves {tokens : List Token} (n : Nat) (h : Tiles lo hi tokens) :
    FillsList blank lo hi (leaves n tokens) := by
  induction tokens generalizing n lo with
  | nil => exact h
  | cons t ts ih =>
      obtain ⟨hpos, hsize, hrest⟩ := h
      rw [leaves_cons]
      exact ⟨t.stop, ⟨hpos, hsize, rfl⟩, ih (n + 1) hrest⟩

mutual

theorem Fills.tiles : (t : Tree) → {lo hi : Nat} → Fills blank lo hi t → Tiles lo hi t.tokens
  | .token .., _, _, h => h
  | .phrase _ _ _ _ cs, _, _, h => FillsList.tiles cs h.1

theorem FillsList.tiles :
    (ts : List Tree) → {lo hi : Nat} → FillsList blank lo hi ts → Tiles lo hi (tokensList ts)
  | [], _, _, h => h
  | t :: ts, _, _, ⟨_, ht, hts⟩ => (Fills.tiles t ht).append (FillsList.tiles ts hts)

end

/-- The tokens tell where they end. -/
theorem FillsList.hi_unique {hi' : Nat} (h : FillsList blank lo hi ts)
    (h' : FillsList blank lo hi' ts) : hi = hi' :=
  (FillsList.tiles ts h).stop_unique (FillsList.tiles ts h')

theorem Fills.pos_eq (h : Fills blank lo hi t) (ht : t.isEmptyList = false) : t.pos = lo := by
  cases t with
  | token id t => exact h.1
  | phrase id kind pos stop cs =>
      have hpos := h.2.2
      rwa [ht] at hpos

theorem Fills.blank_pos (h : Fills blank lo hi t) (ht : t.isEmptyList = true) : blank lo t.pos := by
  cases t with
  | token => cases ht
  | phrase id kind pos stop cs =>
      have hpos := h.2.2
      rwa [ht] at hpos

theorem Fills.stop_eq_pos (h : Fills blank lo hi t) (ht : t.isEmptyList = true) :
    t.stop = t.pos := by
  cases t with
  | token => cases ht
  | phrase id kind pos stop cs =>
      cases children_of_isEmptyList ht
      exact h.2.1

theorem Fills.children {c : Tree} (h : Fills blank lo hi t) (ht : t.children = ts ++ c :: us) :
    ∃ mid mid', FillsList blank lo mid ts ∧ Fills blank mid mid' c ∧ FillsList blank mid' hi us := by
  cases t with
  | token => simp [Tree.children] at ht
  | phrase id kind pos stop cs =>
      have hcs := h.1
      rw [show cs = ts ++ c :: us from ht, fillsList_append] at hcs
      obtain ⟨mid, hts, mid', hc, hus⟩ := hcs
      exact ⟨mid, mid', hts, hc, hus⟩

theorem lastStop_cons (c : Tree) (cs : List Tree) (last : Nat) :
    ((c :: cs).getLast?.map stop).getD last = (cs.getLast?.map stop).getD c.stop := by
  rw [List.getLast?_cons]
  cases cs.getLast? <;> rfl

mutual

/-- A tree ends where its tokens end, or else the text from there on is blank. -/
theorem Fills.stop_eq : (t : Tree) → {lo hi : Nat} → Fills blank lo hi t →
    if t.endsOpen then blank hi t.stop else t.stop = hi
  | .token .., _, _, h => h.2.2
  | .phrase id kind pos stop [], lo, hi, h => by
      obtain ⟨rfl, rfl, hpos⟩ := h
      exact hpos
  | .phrase id kind pos stop (c :: cs), lo, hi, h => by
      obtain ⟨⟨mid, hc, hcs⟩, rfl, hpos⟩ := h
      have hlast := FillsList.stop_eq cs (Fills.stop_eq c hc) hcs
      rwa [← lastStop_cons c cs pos] at hlast

theorem FillsList.stop_eq : (ts : List Tree) → {before : Bool} → {last lo hi : Nat} →
    (if before then blank lo last else last = lo) → FillsList blank lo hi ts →
    if endsOpenList before ts then blank hi ((ts.getLast?.map Tree.stop).getD last)
    else (ts.getLast?.map Tree.stop).getD last = hi
  | [], _, _, _, _, hbefore, h => by
      cases h
      exact hbefore
  | t :: ts, _, last, lo, hi, _, ⟨mid, ht, hts⟩ => by
      have hlast := FillsList.stop_eq ts (Fills.stop_eq t ht) hts
      rwa [← lastStop_cons t ts last] at hlast

end

end ArrayShapes.Syntax.Tree
