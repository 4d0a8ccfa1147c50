import ArrayShapes.Proofs.Syntax.Grammar
import ArrayShapes.Proofs.Syntax.Walk
import ArrayShapes.Proofs.Token.Tiling

/-!
Nothing is lost between the tokens and the tree. Every token is either placed in the forest of
pending nodes or waits behind it, and each step of the grammar keeps them all in order; so it is
with the numbers of the nodes. Where the forest starts and ends in the source is kept as well.
-/

namespace ArrayShapes.Syntax

namespace Lexeme

/-- The blank text and the token. -/
def tokens (l : Lexeme) : List Token := l.blank ++ [l.token]

theorem group_tokens (held : List Token) (done : List Lexeme) (ts : List Token) :
    (group held done ts).1.flatMap tokens ++ (group held done ts).2 =
      done.reverse.flatMap tokens ++ (held.reverse ++ ts) := by
  fun_induction group held done ts with
  | case1 held done => simp
  | case2 held done t ts htrivia ih => simpa using ih
  | case3 held done t ts htrivia ih => simpa [tokens, make] using ih

theorem done_prefix_group (held : List Token) (done : List Lexeme) (ts : List Token) :
    done.reverse <+: (group held done ts).1 := by
  fun_induction group held done ts with
  | case1 held done => exact List.prefix_rfl
  | case2 held done t ts htrivia ih => exact ih
  | case3 held done t ts htrivia ih =>
      refine List.IsPrefix.trans ?_ ih
      simp

end Lexeme

namespace Builder

/-! ### Tokens that wait -/

/-- The tokens that are not placed yet. -/
def unplaced (b : Builder) : List Token := b.ahead.flatMap Lexeme.tokens ++ b.trailing

/-- Where they start. -/
def front (b : Builder) : Nat := b.unplaced.head?.elim b.sourceEnd Token.pos

@[simp]
theorem unplaced_ofTokens (tokens : List Token) (sourceEnd : Nat) :
    (ofTokens tokens sourceEnd).unplaced = tokens := by
  have h := Lexeme.group_tokens [] [] tokens
  simpa [unplaced, ofTokens] using h

/-- `b'` is `b` with the first tokens that waited placed. -/
structure Placed (ts : List Token) (b b' : Builder) : Prop where
  pending : b'.pending.toList = b.pending.toList ++ leaves b.made ts
  made : b'.made = b.made + ts.length
  unplaced : b.unplaced = ts ++ b'.unplaced
  sourceEnd : b'.sourceEnd = b.sourceEnd
  pos : ts = [] → b'.pos = b.pos

theorem advance_placed (b : Builder) : ∃ ts, Placed ts b b.advance := by
  cases hb : b.ahead with
  | nil => exact ⟨[], by rw [advance_nil hb]; simp [leaves], by simp [advance_nil hb], by
      simp [advance_nil hb], by rw [advance_nil hb], fun _ => by rw [advance_nil hb]⟩
  | cons l rest =>
      refine ⟨l.tokens, ?_⟩
      rw [advance_cons hb]
      exact ⟨by simp [Lexeme.tokens], by simp [made, Lexeme.tokens], by simp [unplaced, hb], rfl,
        by simp [Lexeme.tokens]⟩

theorem flush_placed (b : Builder) : ∃ ts, Placed ts b b.flush := by
  cases hb : b.ahead with
  | nil =>
      refine ⟨b.trailing, ?_⟩
      rw [flush_nil hb]
      exact ⟨by simp, by simp [made], by simp [unplaced, hb], rfl, fun _ => rfl⟩
  | cons l rest =>
      refine ⟨l.blank, ?_⟩
      rw [flush_cons hb]
      exact ⟨by simp, by simp [made], by simp [unplaced, hb, Lexeme.tokens], rfl,
        fun _ => by simp [pos, hb]⟩

/-- The forest is split at the mark, and what is behind it goes into a new node. -/
theorem finish_pending (b : Builder) (kind : PhraseKind) (mark : Nat) :
    ∃ low high, low.length ≤ mark ∧ b.pending.toList = low ++ high ∧
      (b.finish kind mark).pending.toList =
        low ++ [.phrase b.made kind ((high.head?.map Tree.pos).getD b.pos)
          ((high.getLast?.map Tree.stop).getD b.pos) high] :=
  ⟨b.pending.toList.take mark, b.pending.toList.drop mark, List.length_take_le ..,
    (List.take_append_drop mark _).symm, finish_pending_toList b kind mark⟩

theorem made_finish (b : Builder) (kind : PhraseKind) (mark : Nat) :
    (b.finish kind mark).made = b.made + 1 := by
  simp [finish, made]

/-! ### Tokens and numbers -/

/-- The tokens that are placed and those that wait are `tokens`, and each number given to a node so
far stands at one node. -/
structure Lossless (tokens : List Token) (b : Builder) : Prop where
  tokens_eq : Tree.tokensList b.pending.toList ++ b.unplaced = tokens
  numbers : ((Tree.preorderList b.pending.toList).map Tree.id).Perm (List.range b.made)

theorem tokensList_leaves (n : Nat) (ts : List Token) : Tree.tokensList (leaves n ts) = ts := by
  induction ts generalizing n with
  | nil => rfl
  | cons t ts ih => simp [leaves_cons, Tree.tokensList, Tree.tokens, ih]

theorem numbers_leaves (n : Nat) (ts : List Token) :
    (Tree.preorderList (leaves n ts)).map Tree.id = List.range' n ts.length := by
  induction ts generalizing n with
  | nil => rfl
  | cons t ts ih =>
      simp [leaves_cons, Tree.preorderList, Tree.preorder, Tree.id, ih, List.range'_succ]

theorem Lossless.of_placed {tokens ts : List Token} {b b' : Builder} (h : Lossless tokens b)
    (hp : Placed ts b b') : Lossless tokens b' where
  tokens_eq := by
    rw [hp.pending, Tree.tokensList_append, tokensList_leaves, List.append_assoc, ← hp.unplaced]
    exact h.tokens_eq
  numbers := by
    rw [hp.pending, Tree.preorderList_append, List.map_append, numbers_leaves, hp.made,
      List.range_eq_range', ← List.range'_append_1, Nat.zero_add, ← List.range_eq_range']
    exact h.numbers.append_right _

theorem Lossless.finish {tokens : List Token} {b : Builder} (h : Lossless tokens b)
    (kind : PhraseKind) (mark : Nat) : Lossless tokens (b.finish kind mark) := by
  obtain ⟨low, high, -, hforest, hfinish⟩ := finish_pending b kind mark
  refine ⟨?_, ?_⟩
  · have htokens := h.tokens_eq
    rw [hforest, Tree.tokensList_append] at htokens
    rw [hfinish, Tree.tokensList_append]
    simp only [Tree.tokensList, Tree.tokens, List.append_nil]
    exact htokens
  · have hnumbers := h.numbers
    rw [hforest, Tree.preorderList_append, List.map_append] at hnumbers
    rw [hfinish, Tree.preorderList_append, List.map_append]
    simp only [Tree.preorderList, Tree.preorder, List.append_nil, List.map_cons]
    -- the new node has the last number but stands in front of its children
    rw [made_finish, List.range_succ]
    exact List.perm_middle.trans ((hnumbers.cons _).trans (List.perm_append_singleton _ _).symm)

theorem Move.lossless {tokens : List Token} {b b' : Builder} (h : Move b b')
    (hb : Lossless tokens b) : Lossless tokens b' := by
  cases h with
  | advance =>
      obtain ⟨_, hp⟩ := advance_placed b
      exact hb.of_placed hp
  | flush =>
      obtain ⟨_, hp⟩ := flush_placed b
      exact hb.of_placed hp
  | report p => rw [report_eq]; exact ⟨hb.tokens_eq, hb.numbers⟩
  | finish kind mark => exact hb.finish kind mark
  | level => exact ⟨hb.tokens_eq, hb.numbers⟩

theorem lossless_ofTokens (tokens : List Token) (sourceEnd : Nat) :
    Lossless tokens (ofTokens tokens sourceEnd) where
  tokens_eq := by rw [unplaced_ofTokens]; rfl
  numbers := .nil

/-! ### Where the forest stands -/

/-- The forest starts with the source and ends where the tokens that wait start, or else where the
next of them does that is not blank. -/
structure Extent (b : Builder) : Prop where
  tiles : Tiles b.front b.sourceEnd b.unplaced
  first : ∀ t, b.pending.toList.head? = some t → t.pos = 0
  fresh : b.pending.toList = [] → b.front = 0 ∧ b.pos = 0
  last : ∀ t, b.pending.toList.getLast? = some t → t.stop = b.front ∨ t.stop = b.pos

theorem Extent.of_placed {ts : List Token} {b b' : Builder} (h : Extent b)
    (hp : Placed ts b b') : Extent b' := by
  obtain ⟨mid, hts, hrest⟩ : ∃ mid, Tiles b.front mid ts ∧ Tiles mid b.sourceEnd b'.unplaced :=
    Tiles.of_append (hp.unplaced ▸ h.tiles)
  have hmid : b'.front = mid := by rw [front, hp.sourceEnd]; exact hrest.front_eq
  cases ts with
  | nil =>
      -- nothing is placed, so all stays as it is
      have hpending : b'.pending.toList = b.pending.toList := by rw [hp.pending]; simp [leaves]
      have hfront : b'.front = b.front := hmid.trans hts.symm
      have hpos := hp.pos rfl
      refine ⟨by rwa [hmid, hp.sourceEnd], ?_, ?_, ?_⟩
      · rw [hpending]
        exact h.first
      · rw [hpending, hfront, hpos]
        exact h.fresh
      · rw [hpending, hfront, hpos]
        exact h.last
  | cons u us =>
      refine ⟨by rwa [hmid, hp.sourceEnd], ?_, ?_, ?_⟩
      · intro t ht
        rw [hp.pending, leaves_cons] at ht
        cases hforest : b.pending.toList with
        | nil =>
            rw [hforest] at ht
            cases ht
            exact hts.1.trans (h.fresh hforest).1
        | cons v vs =>
            rw [hforest] at ht
            exact h.first t (by rw [hforest]; exact ht)
      · intro hforest
        rw [hp.pending, leaves_cons] at hforest
        simp at hforest
      · intro t ht
        obtain ⟨last, hlast⟩ : ∃ last, (u :: us).getLast? = some last := ⟨_, List.getLast?_cons⟩
        rw [hp.pending, List.getLast?_append, leaves, List.getLast?_mapIdx, hlast] at ht
        cases ht
        exact .inl ((hts.stop_of_getLast? hlast).trans hmid.symm)

theorem Extent.finish {b : Builder} (h : Extent b) (kind : PhraseKind) (mark : Nat) :
    Extent (b.finish kind mark) := by
  obtain ⟨low, high, -, hforest, hfinish⟩ := finish_pending b kind mark
  have hfirst := h.first
  have hfresh := h.fresh
  have hlast := h.last
  rw [hforest] at hfirst hfresh hlast
  refine ⟨h.tiles, ?_, ?_, ?_⟩
  · rw [hfinish]
    intro t ht
    cases low with
    | nil =>
        cases ht
        cases high with
        | nil => exact (hfresh rfl).2
        | cons v vs => exact hfirst v rfl
    | cons v vs => exact hfirst t ht
  · rw [hfinish]
    intro hnil
    simp at hnil
  · rw [hfinish, List.getLast?_concat]
    intro t ht
    cases ht
    change (high.getLast?.map Tree.stop).getD b.pos = b.front ∨
      (high.getLast?.map Tree.stop).getD b.pos = b.pos
    cases hhigh : high.getLast? with
    | none => exact .inr rfl
    | some v => exact hlast v (by rw [List.getLast?_append, hhigh]; rfl)

theorem Move.extent {b b' : Builder} (h : Move b b') (hb : Extent b) : Extent b' := by
  cases h with
  | advance =>
      obtain ⟨_, hp⟩ := advance_placed b
      exact hb.of_placed hp
  | flush =>
      obtain ⟨_, hp⟩ := flush_placed b
      exact hb.of_placed hp
  | report p => rw [report_eq]; exact ⟨hb.tiles, hb.first, hb.fresh, hb.last⟩
  | finish kind mark => exact hb.finish kind mark
  | level => exact ⟨hb.tiles, hb.first, hb.fresh, hb.last⟩

theorem ahead_ofTokens_cons {t : Token} (ht : t.isTrivia = false) (ts : List Token)
    (sourceEnd : Nat) : ∃ rest, (ofTokens (t :: ts) sourceEnd).ahead = .make [] t :: rest := by
  obtain ⟨rest, hrest⟩ := Lexeme.done_prefix_group [] [.make [] t] ts
  refine ⟨rest, ?_⟩
  simpa [ofTokens, Lexeme.group, ht] using hrest.symm

/-- Sources do not start with blank text, so there is nothing to place in front of them. -/
theorem flush_ofTokens {tokens : List Token} (sourceEnd : Nat)
    (hfirst : ∀ t, tokens.head? = some t → t.isTrivia = false) :
    (ofTokens tokens sourceEnd).flush = ofTokens tokens sourceEnd := by
  cases tokens with
  | nil => rfl
  | cons t ts =>
      obtain ⟨rest, hahead⟩ := ahead_ofTokens_cons (hfirst t rfl) ts sourceEnd
      simp [flush, hahead, Lexeme.make]

theorem extent_ofTokens {tokens : List Token} {sourceEnd : Nat} (h : Tiles 0 sourceEnd tokens)
    (hfirst : ∀ t, tokens.head? = some t → t.isTrivia = false) :
    Extent (ofTokens tokens sourceEnd) := by
  have hfront : (ofTokens tokens sourceEnd).front = 0 := by
    rw [front, unplaced_ofTokens]
    exact h.front_eq
  have hpos : (ofTokens tokens sourceEnd).pos = 0 := by
    cases tokens with
    | nil => exact h.symm
    | cons t ts =>
        obtain ⟨rest, hahead⟩ := ahead_ofTokens_cons (hfirst t rfl) ts sourceEnd
        rw [pos, hahead]
        exact h.1
  refine ⟨?_, ?_, fun _ => ⟨hfront, hpos⟩, ?_⟩
  · rw [hfront, unplaced_ofTokens]
    exact h
  · intro t ht
    cases ht
  · intro t ht
    cases ht

/-! ### Whole trees -/

theorem Move.sourceEnd_eq {b b' : Builder} (h : Move b b') : b'.sourceEnd = b.sourceEnd := by
  cases h with
  | advance =>
      obtain ⟨_, hp⟩ := advance_placed b
      exact hp.sourceEnd
  | flush =>
      obtain ⟨_, hp⟩ := flush_placed b
      exact hp.sourceEnd
  | report p => rw [report_eq]
  | finish | level => rfl

theorem Moves.sourceEnd_eq {b b' : Builder} (h : Moves b b') : b'.sourceEnd = b.sourceEnd :=
  h.preserves (P := fun b' => b'.sourceEnd = b.sourceEnd) (fun hm => hm.sourceEnd_eq.trans) rfl

/-- A phrase around all that there is stands for the whole source. -/
theorem Extent.finish_zero {b : Builder} (h : Extent b) (hahead : b.ahead = [])
    (htrailing : b.trailing = []) (kind : PhraseKind) :
    (b.finish kind 0).pending.toList =
      [.phrase b.made kind 0 b.sourceEnd b.pending.toList] := by
  obtain ⟨low, high, hlow, hforest, hfinish⟩ := finish_pending b kind 0
  cases List.eq_nil_of_length_eq_zero (Nat.le_zero.1 hlow)
  have hfront : b.front = b.sourceEnd := by simp [front, unplaced, hahead, htrailing]
  have hpos : b.pos = b.sourceEnd := by simp [pos, hahead]
  have hstart : (high.head?.map Tree.pos).getD b.pos = 0 := by
    have hroot := (h.finish kind 0).first _ (congrArg List.head? hfinish)
    exact hroot
  have hstop : (high.getLast?.map Tree.stop).getD b.pos = b.sourceEnd := by
    rcases (h.finish kind 0).last _ (by rw [hfinish]; exact List.getLast?_concat) with hs | hs
    · exact hs.trans hfront
    · exact hs.trans hpos
  rw [hfinish, hstart, hstop, hforest]
  rfl

end Builder

/-- Whatever the tokens are, they are parsed, in steps from a builder with all of them ahead. -/
theorem parse_built (tokens : List Token) (sourceEnd : Nat) :
    ∃ b, Builder.parse tokens sourceEnd = some b ∧
      Builder.Built 0 (.ofTokens tokens sourceEnd) b := by
  obtain ⟨b, hbuilt, -, -, hmark, hscript⟩ := Grammar.script_result
    (b := .ofTokens tokens sourceEnd) ⟨Nat.zero_le _, rfl⟩
  exact ⟨_, Option.map_eq_some_iff.2 ⟨_, hscript, rfl⟩,
    hbuilt.trans (.finish (Nat.zero_le _) hmark nofun)⟩

theorem built_of_parse {tokens : List Token} {sourceEnd : Nat} {b : Builder}
    (h : Builder.parse tokens sourceEnd = some b) :
    Builder.Built 0 (.ofTokens tokens sourceEnd) b := by
  obtain ⟨b', hparse, hbuilt⟩ := parse_built tokens sourceEnd
  cases h.symm.trans hparse
  exact hbuilt

/-- Whatever the tokens of a source are, they are parsed to the end, and the one node that is left
is the whole source. -/
theorem parse_result {tokens : List Token} {sourceEnd : Nat} (h : Tiles 0 sourceEnd tokens)
    (hfirst : ∀ t, tokens.head? = some t → t.isTrivia = false) :
    ∃ b id children, Builder.parse tokens sourceEnd = some b ∧ b.ahead = [] ∧ b.trailing = [] ∧
      b.pending.toList = [.phrase id .script 0 sourceEnd children] ∧ b.Lossless tokens := by
  obtain ⟨b, hbuilt, hahead, htrailing, -, hscript⟩ := Grammar.script_result
    (b := .ofTokens tokens sourceEnd) ⟨Nat.zero_le _, rfl⟩
  rw [Builder.flush_ofTokens sourceEnd hfirst] at hscript
  have hextent := hbuilt.moves.preserves Builder.Move.extent (Builder.extent_ofTokens h hfirst)
  have hlossless := hbuilt.moves.preserves Builder.Move.lossless (Builder.lossless_ofTokens ..)
  refine ⟨b.finish .script 0, b.made, b.pending.toList, ?_, hahead, htrailing, ?_,
    hlossless.finish .script 0⟩
  · exact Option.map_eq_some_iff.2 ⟨_, hscript, rfl⟩
  · rw [hextent.finish_zero hahead htrailing, hbuilt.moves.sourceEnd_eq]
    rfl

/-- Every source is parsed, well-formed or not, until no token is left. The tree is a script from
the first byte to the last. The tokens met on the way through it are those of the scan, and each of
the nodes that were made is met once. -/
theorem parse_lossless (number : Nat) (uri text : String) :
    (∃ b, Builder.parse (scan text).tokens.toList text.utf8ByteSize = some b ∧
      b.ahead = [] ∧ b.trailing = [] ∧
      (Document.parse number uri text).tree = b.root ∧
      (Document.parse number uri text).nodes = b.made) ∧
    (Document.parse number uri text).root.kind = .phrase .script ∧
    (Document.parse number uri text).root.pos = 0 ∧
    (Document.parse number uri text).root.stop = text.utf8ByteSize ∧
    (Document.parse number uri text).root.descendants.filterMap (·.tree.token?) =
      (scan text).tokens.toList ∧
    ((Document.parse number uri text).root.descendants.map (·.tree.id)).Perm
      (List.range (Document.parse number uri text).nodes) := by
  have hreads := Scan.scan_reads text
  obtain ⟨b, id, children, hparse, hahead, htrailing, hroot, hlossless⟩ :=
    parse_result (by simpa [Text.byteLength_toList] using hreads.tiles) hreads.head_not_isTrivia
  have htree : (Document.parse number uri text).tree = b.root := by
    simp [Document.parse, hparse]
  have hnodes : (Document.parse number uri text).nodes = b.made := by
    simp [Document.parse, Document.nodes, Builder.made, hparse]
  have hroot' : b.root = .phrase id .script 0 text.utf8ByteSize children := by
    rw [Builder.root, ← Array.getElem?_toList, hroot]
    rfl
  have htokens := hlossless.tokens_eq
  have hnumbers := hlossless.numbers
  rw [hroot] at htokens hnumbers
  refine ⟨⟨b, hparse, hahead, htrailing, htree, hnodes⟩, ?_, ?_, ?_, ?_, ?_⟩
  · simp [Document.root, Node.kind, htree, hroot', Tree.kind]
  · simp [Document.root, Node.pos, htree, hroot', Tree.pos]
  · simp [Document.root, Node.stop, htree, hroot', Tree.stop]
  · rw [Node.filterMap_token?_descendants, Document.root, htree, hroot']
    simpa [Tree.tokensList, Builder.unplaced, hahead, htrailing] using htokens
  · rw [Node.map_id_descendants, Document.root, htree, hroot', hnodes]
    simpa [Tree.preorderList] using hnumbers

end ArrayShapes.Syntax
