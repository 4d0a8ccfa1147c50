import ArrayShapes.Proofs.Syntax.Growth
import ArrayShapes.Proofs.Syntax.Judgment

/-!
What the grammar sees of a builder, and that this settles what it does. It looks at the kinds and
texts of the tokens ahead, at how many are left and how deep it is, never at blank text, positions or
numbers. A scene is what is seen, with sketches of the nodes behind a mark. `Settles` says of a
parser that from all builders which show a scene it does the same; there is a rule for each way to
put parsers together.
-/

namespace ArrayShapes.Syntax

/-- A lexeme without blank text and position. -/
def Lexeme.bare (l : Lexeme) : Lexeme := { l with blank := [], token := { l.token with pos := 0 } }

def Lexeme.sketch (l : Lexeme) : Sketch := .token l.token.kind l.token.text

/-- Blank text in front of a token that is not blank, with its word if it is a name. -/
structure Lexeme.Tidy (l : Lexeme) : Prop where
  blank : ∀ t ∈ l.blank, t.isTrivia = true
  token : l.token.isTrivia = false
  word : l.word = if l.token.kind = .name then some (Text.lower l.token.text) else none

namespace Builder

/-! ### Sight -/

/-- What is seen of a builder, as a builder. -/
def sight (b : Builder) : Builder where
  ahead := b.ahead.map Lexeme.bare
  left := b.left
  trailing := []
  sourceEnd := 0
  pending := #[]
  arena := .empty
  depth := b.depth
  diagnostics := #[]
  lastReport := none

variable (b : Builder)

@[simp]
theorem sight_left : b.sight.left = b.left := rfl

@[simp]
theorem sight_depth : b.sight.depth = b.depth := rfl

@[simp]
theorem atEnd_sight : b.sight.atEnd = b.atEnd := by
  simp [atEnd, sight]

@[simp]
theorem nthKind?_sight (n : Nat) : b.sight.nthKind? n = b.nthKind? n := by
  simp [nthKind?, sight, Function.comp_def, Lexeme.bare]

@[simp]
theorem kind?_sight : b.sight.kind? = b.kind? := by
  simp [kind?, sight, Function.comp_def, Lexeme.bare]

@[simp]
theorem word?_sight : b.sight.word? = b.word? := by
  simp [word?, sight, Option.bind_map, Function.comp_def, Lexeme.bare]

@[simp]
theorem nthIsKeyword_sight (n : Nat) (w : String) : b.sight.nthIsKeyword n w = b.nthIsKeyword n w := by
  simp [nthIsKeyword, sight, Option.bind_map, Function.comp_def, Lexeme.bare]

@[simp]
theorem isAt_sight (k : TokenKind) : b.sight.isAt k = b.isAt k := by
  simp [isAt]

@[simp]
theorem isAtAny_sight (ks : List TokenKind) : b.sight.isAtAny ks = b.isAtAny ks := by
  simp [isAtAny]

@[simp]
theorem nthIs_sight (n : Nat) (k : TokenKind) : b.sight.nthIs n k = b.nthIs n k := by
  simp [nthIs]

@[simp]
theorem isKeyword_sight (w : String) : b.sight.isKeyword w = b.isKeyword w := by
  simp [isKeyword]

@[simp]
theorem isAnyKeyword_sight (ws : List String) : b.sight.isAnyKeyword ws = b.isAnyKeyword ws := by
  simp [isAnyKeyword]

@[simp]
theorem sight_flush : b.flush.sight = b.sight := by
  cases hb : b.ahead with
  | nil => rw [flush_nil hb]; simp [sight, hb]
  | cons l rest => rw [flush_cons hb]; simp [sight, hb, Lexeme.bare]

@[simp]
theorem sight_report (p : Problem) : (b.report p).sight = b.sight := by
  rw [report_eq]
  rfl

theorem flush_report (p : Problem) : b.flush.report p = (b.report p).flush := by
  cases hb : b.ahead with
  | nil =>
      have hr : (b.report p).ahead = [] := by rw [report_eq]; exact hb
      rw [flush_nil hr, report_eq, report_eq, flush_pos, lastReport_flush, flush_nil hb]
      rfl
  | cons l rest =>
      have hr : (b.report p).ahead = l :: rest := by rw [report_eq]; exact hb
      rw [flush_cons hr, report_eq, report_eq, flush_pos, lastReport_flush, flush_cons hb]
      simp [hb, made]

theorem flush_withDepth (d : Nat) :
    { b with depth := d }.flush = { b.flush with depth := d } := by
  cases hb : b.ahead with
  | nil => simp [flush, hb, placeAll_eq, made]
  | cons l rest => cases hblank : l.blank <;> simp [flush, hb, hblank, placeAll_eq, made]

theorem sight_advance : b.advance.sight = b.sight.advance.sight := by
  cases hb : b.ahead with
  | nil =>
      have hs : b.sight.ahead = [] := by simp [sight, hb]
      rw [advance_nil hb, advance_nil hs]
      simp [sight, hb]
  | cons l rest =>
      have hs : b.sight.ahead = l.bare :: rest.map Lexeme.bare := by simp [sight, hb]
      rw [advance_cons hb, advance_cons hs]
      simp [sight, Lexeme.bare]

variable {b}

/-- The blank text of a builder is blank, and its tokens are not. -/
structure Tidy (b : Builder) : Prop where
  ahead : ∀ l ∈ b.ahead, l.Tidy
  trailing : ∀ t ∈ b.trailing, t.isTrivia = true

theorem sketchList_leaves_blank (n : Nat) {ts : List Token} (h : ∀ t ∈ ts, t.isTrivia = true) :
    Tree.sketchList (leaves n ts) = [] := by
  induction ts generalizing n with
  | nil => rfl
  | cons t ts ih =>
      have ht : Tree.isTrivia (.token n t) = true := h t List.mem_cons_self
      rw [leaves_cons, Tree.sketchList, if_pos ht]
      exact ih (n + 1) fun u hu => h u (List.mem_cons_of_mem t hu)

namespace Tidy

variable (h : Tidy b)
include h

theorem flush : Tidy b.flush := by
  cases hb : b.ahead with
  | nil => rw [flush_nil hb]; exact ⟨h.ahead, by simp⟩
  | cons l rest =>
      have hahead := h.ahead
      rw [hb] at hahead
      rw [flush_cons hb]
      refine ⟨fun l' hl' => ?_, h.trailing⟩
      rcases List.mem_cons.1 hl' with rfl | hl'
      · have hl := hahead l List.mem_cons_self
        exact ⟨by simp, hl.token, hl.word⟩
      · exact hahead l' (List.mem_cons_of_mem l hl')

theorem advance : Tidy b.advance := by
  cases hb : b.ahead with
  | nil => rwa [advance_nil hb]
  | cons l rest =>
      have hahead := h.ahead
      rw [hb] at hahead
      rw [advance_cons hb]
      exact ⟨fun l' hl' => hahead l' (List.mem_cons_of_mem l hl'), h.trailing⟩

theorem report (p : Problem) : Tidy (b.report p) := by
  rw [report_eq]
  exact ⟨h.ahead, h.trailing⟩

end Tidy

theorem Move.tidy (h : Move b b') (hb : Tidy b) : Tidy b' := by
  cases h with
  | advance => exact hb.advance
  | flush => exact hb.flush
  | report p => exact hb.report p
  | finish | level => exact ⟨hb.ahead, hb.trailing⟩

end Builder

open Builder

/-! ### Scenes -/

structure Scene where
  sight : Builder
  nodes : List Sketch

/-- The scene after the next token has been taken. -/
def Scene.next (σ : Scene) : Scene :=
  ⟨σ.sight.advance.sight, σ.nodes ++ (σ.sight.ahead.head?.map Lexeme.sketch).toList⟩

/-- The nodes behind the mark fill the places. -/
def Scene.Filled (slots : List Slot) (σ : Scene) : Prop := Slot.filledBy slots σ.nodes = true

theorem Scene.Filled.nil (b : Builder) : Scene.Filled [] ⟨b, []⟩ := rfl

/-- An optional place may stay empty. -/
theorem Scene.Filled.skip {slots : List Slot} {σ : Scene} (h : σ.Filled slots)
    (test : Sketch → Bool) : σ.Filled (slots ++ [.optional test]) := by
  have hempty : Slot.filledBy [.optional test] [] = true := rfl
  simpa [Scene.Filled] using Slot.filledBy_append h hempty

def Scene.withDepth (σ : Scene) (d : Nat) : Scene := ⟨{ σ.sight with depth := d }, σ.nodes⟩

/-- The builder shows the scene to those who work behind the mark `base`. -/
structure Builder.Shows (base : Nat) (b : Builder) (σ : Scene) : Prop where
  tidy : b.Tidy
  base_le : base ≤ b.pending.size
  sight_eq : b.sight = σ.sight
  nodes_eq : b.nodes base = σ.nodes

namespace Builder

variable {base start : Nat} {b b' : Builder}

theorem nodes_size (b : Builder) : b.nodes b.pending.size = [] := by
  rw [nodes, List.drop_of_length_le (by simp)]
  rfl

theorem nodes_append {ts : List Tree} (hle : base ≤ b.pending.size)
    (h : b'.pending.toList = b.pending.toList ++ ts) :
    b'.nodes base = b.nodes base ++ Tree.sketchList ts := by
  rw [nodes, h, List.drop_append_of_le_length (by simpa using hle), Tree.sketchList_append]
  rfl

theorem nodes_split (hle : base ≤ start) (hstart : start ≤ b.pending.size) :
    b.nodes base = Tree.sketchList ((b.pending.toList.take start).drop base) ++ b.nodes start := by
  have hlen : base ≤ (b.pending.toList.take start).length := by simp; omega
  rw [nodes, nodes, ← Tree.sketchList_append, ← List.drop_append_of_le_length hlen,
    List.take_append_drop]

namespace Shows

variable {σ σ' : Scene}

theorem flush (h : Shows base b σ) : Shows base b.flush σ := by
  refine ⟨h.tidy.flush, Nat.le_trans h.base_le (size_le_flush b), ?_, ?_⟩
  · rw [sight_flush, h.sight_eq]
  · rw [← h.nodes_eq]
    cases hb : b.ahead with
    | nil =>
        have hts : b.flush.pending.toList = b.pending.toList ++ leaves b.made b.trailing := by
          rw [flush_nil hb]; simp
        rw [nodes_append h.base_le hts, sketchList_leaves_blank _ h.tidy.trailing, List.append_nil]
    | cons l rest =>
        have hts : b.flush.pending.toList = b.pending.toList ++ leaves b.made l.blank := by
          rw [flush_cons hb]; simp
        have hl := h.tidy.ahead l (by rw [hb]; exact List.mem_cons_self)
        rw [nodes_append h.base_le hts, sketchList_leaves_blank _ hl.blank, List.append_nil]

theorem report (h : Shows base b σ) (p : Problem) : Shows base (b.report p) σ := by
  refine ⟨h.tidy.report p, ?_, ?_, ?_⟩
  · rw [report_eq]; exact h.base_le
  · rw [sight_report, h.sight_eq]
  · rw [report_eq]; exact h.nodes_eq

theorem finish (h : Shows base b σ) (kind : PhraseKind) :
    Shows base (b.finish kind base) ⟨σ.sight, [.phrase kind σ.nodes]⟩ := by
  refine ⟨⟨h.tidy.ahead, h.tidy.trailing⟩,
    (Keeps.finish (Nat.le_refl _) h.base_le kind).base_le, h.sight_eq, ?_⟩
  have hlen : (b.pending.toList.take base).length = base :=
    List.length_take_of_le (by simpa using h.base_le)
  rw [nodes, finish_pending_toList, List.drop_append_of_le_length (by omega),
    List.drop_of_length_le (by omega), List.nil_append, ← h.nodes_eq]
  simp [Tree.sketchList, Tree.isTrivia, Tree.tokenKind?, Tree.sketch_phrase, nodes]

/-- Everything behind a new mark is still to come. -/
theorem mark (h : Shows base b σ) : Shows b.flush.pending.size b.flush ⟨σ.sight, []⟩ :=
  ⟨h.flush.tidy, Nat.le_refl _, h.flush.sight_eq, nodes_size _⟩

/-- The blank text in front of a list stands behind the mark of the list. -/
theorem markOutside (h : Shows base b σ) : Shows b.pending.size b.flush ⟨σ.sight, []⟩ :=
  Shows.flush ⟨h.tidy, Nat.le_refl _, h.sight_eq, nodes_size b⟩

/-- What was made behind a later mark, seen from an earlier one. -/
theorem unmark (h : Shows base b σ) (hle : base ≤ start) (hstart : start ≤ b.pending.size)
    (hnodes : b.nodes start = []) (hkeeps : Keeps start b b') (h' : Shows start b' σ') :
    Shows base b' ⟨σ'.sight, σ.nodes ++ σ'.nodes⟩ := by
  refine ⟨h'.tidy, Nat.le_trans hle h'.base_le, h'.sight_eq, ?_⟩
  have hbefore := nodes_split hle hstart
  rw [hnodes, List.append_nil, h.nodes_eq] at hbefore
  rw [nodes_split hle h'.base_le, hkeeps.take_eq, ← hbefore, h'.nodes_eq]

theorem advance (h : Shows base b σ) : Shows base b.advance σ.next := by
  have hsight : b.advance.sight = σ.sight.advance.sight := by rw [sight_advance, h.sight_eq]
  cases hb : b.ahead with
  | nil =>
      have hnext : σ.next.nodes = σ.nodes := by simp [Scene.next, ← h.sight_eq, sight, hb]
      refine ⟨h.tidy.advance, ?_, hsight, ?_⟩
      · rw [advance_nil hb]; exact h.base_le
      · rw [advance_nil hb, hnext, h.nodes_eq]
  | cons l rest =>
      have hl := h.tidy.ahead l (by rw [hb]; exact List.mem_cons_self)
      have hts : b.advance.pending.toList =
          b.pending.toList ++ leaves b.made (l.blank ++ [l.token]) := by
        rw [advance_cons hb]; simp
      have hnext : σ.next.nodes = σ.nodes ++ [l.sketch] := by
        simp [Scene.next, ← h.sight_eq, sight, hb, Lexeme.sketch, Lexeme.bare]
      have htoken (n : Nat) : Tree.sketchList (leaves n [l.token]) = [l.sketch] := by
        have ht : Tree.isTrivia (.token n l.token) = false := hl.token
        simp [leaves, Tree.sketchList, ht, Tree.sketch, Lexeme.sketch]
      refine ⟨h.tidy.advance, (Keeps.of_append h.base_le hts).base_le, hsight, ?_⟩
      rw [nodes_append h.base_le hts, leaves_append, Tree.sketchList_append,
        sketchList_leaves_blank _ hl.blank, htoken, hnext, h.nodes_eq]
      rfl

theorem tidy_sight (h : Shows base b σ) : ∀ l ∈ σ.sight.ahead, l.Tidy := by
  intro l hl
  rw [← h.sight_eq] at hl
  obtain ⟨l', hl', rfl⟩ := List.mem_map.1 hl
  have htidy := h.tidy.ahead l' hl'
  exact ⟨by simp [Lexeme.bare], htidy.token, htidy.word⟩

theorem left_eq (h : Shows base b σ) : b.left = σ.sight.left := by
  rw [← h.sight_eq, sight_left]

theorem depth_eq (h : Shows base b σ) : b.depth = σ.sight.depth := by
  rw [← h.sight_eq, sight_depth]

theorem withDepth (h : Shows base b σ) (f : Nat → Nat) :
    Shows base { b with depth := f b.depth } (σ.withDepth (f σ.sight.depth)) :=
  ⟨⟨h.tidy.ahead, h.tidy.trailing⟩, h.base_le, by rw [Scene.withDepth, ← h.sight_eq]; rfl, h.nodes_eq⟩

end Shows

end Builder

end ArrayShapes.Syntax
