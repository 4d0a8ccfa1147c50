import ArrayShapes.Proofs.Syntax.Scene.Script

/-!
Blank text and comments make no difference to the grammar. Two sources with the same tokens between
them have trees of the same sketch, and the problems found in them are about the same tokens.

A problem is not reported if the last one was at the same place. Places are compared by their
offsets; since no token is empty, different tokens have different offsets, so it comes to the same to
compare how many tokens are left.
-/

namespace ArrayShapes.Syntax

/-- The tokens of a source that are not blank. -/
def significant (text : String) : List Token := (scan text).tokens.toList.filter (!·.isTrivia)

/-- Where token number `i` starts; behind the last one there is the end of the source. -/
def startOf (ts : List Token) (sourceEnd i : Nat) : Nat := ts[i]?.elim sourceEnd Token.pos

/-- A problem with token number `i`, or with the end of the source. -/
def diagnosticAt (ts : List Token) (sourceEnd i : Nat) (p : Problem) : Diagnostic :=
  ⟨startOf ts sourceEnd i, ts[i]?.elim 0 Token.size, p⟩

/-- No two tokens start at the same place, and none at the end of the source. -/
def StartsApart (ts : List Token) (sourceEnd : Nat) : Prop :=
  (ts.map Token.pos ++ [sourceEnd]).Pairwise (· < ·)

theorem StartsApart.startOf_lt {ts : List Token} {sourceEnd i j : Nat}
    (h : StartsApart ts sourceEnd) (hj : j ≤ ts.length) (hij : i < j) :
    startOf ts sourceEnd i < startOf ts sourceEnd j := by
  have hget {k : Nat} (hk : k ≤ ts.length) :
      (ts.map Token.pos ++ [sourceEnd])[k]? = some (startOf ts sourceEnd k) := by
    rcases Nat.lt_or_eq_of_le hk with hlt | rfl
    · rw [List.getElem?_append_left (by simpa using hlt)]
      simp [startOf, hlt]
    · simp [startOf]
  obtain ⟨_, hi⟩ := List.getElem?_eq_some_iff.1 (hget (Nat.le_trans (Nat.le_of_lt hij) hj))
  obtain ⟨_, hj⟩ := List.getElem?_eq_some_iff.1 (hget hj)
  rw [← hi, ← hj]
  exact List.pairwise_iff_getElem.1 h i j _ _ hij

theorem StartsApart.startOf_inj {ts : List Token} {sourceEnd i j : Nat}
    (h : StartsApart ts sourceEnd) (hi : i ≤ ts.length) (hj : j ≤ ts.length)
    (heq : startOf ts sourceEnd i = startOf ts sourceEnd j) : i = j := by
  rcases Nat.lt_trichotomy i j with hij | rfl | hij
  · exact absurd heq (Nat.ne_of_lt (h.startOf_lt hj hij))
  · rfl
  · exact absurd heq.symm (Nat.ne_of_lt (h.startOf_lt hi hij))

theorem startsApart_significant (text : String) :
    StartsApart (significant text) text.utf8ByteSize := by
  have htiles := (Scan.scan_reads text).tiles
  rw [Nat.zero_add, Text.byteLength_toList] at htiles
  refine htiles.pairwise_pos.sublist (List.Sublist.append ?_ (List.Sublist.refl _))
  exact List.filter_sublist.map Token.pos

/-- The problems that are reported, when `n` is found after those of `heard` have been. -/
def hear (heard : List Notice) (n : Notice) : List Notice :=
  if heard.getLast?.map Notice.left = some n.left then heard else heard ++ [n]

/-! ### Problems that are reported -/

namespace Builder

variable {ts : List Token} {sourceEnd base : Nat} {b b' : Builder} {found heard : List Notice}

/-- The tokens ahead are the last ones of `ts`. -/
structure Follows (ts : List Token) (sourceEnd : Nat) (b : Builder) : Prop where
  sourceEnd_eq : b.sourceEnd = sourceEnd
  left_le : b.left ≤ ts.length
  ahead_eq : b.ahead.map Lexeme.token = ts.drop (ts.length - b.left)

namespace Follows

variable (h : Follows ts sourceEnd b)
include h

theorem head?_eq : b.ahead.head?.map Lexeme.token = ts[ts.length - b.left]? := by
  rw [← List.head?_map, h.ahead_eq, List.head?_drop]

theorem pos_eq : b.pos = startOf ts sourceEnd (ts.length - b.left) := by
  rw [startOf, ← h.head?_eq, pos, h.sourceEnd_eq]
  cases b.ahead <;> rfl

theorem report (p : Problem) : Follows ts sourceEnd (b.report p) := by
  rw [report_eq]
  exact ⟨h.sourceEnd_eq, h.left_le, h.ahead_eq⟩

theorem flush : Follows ts sourceEnd b.flush := by
  have hahead := h.ahead_eq
  cases hb : b.ahead with
  | nil => rw [flush_nil hb]; exact ⟨h.sourceEnd_eq, h.left_le, h.ahead_eq⟩
  | cons l rest =>
      rw [flush_cons hb]
      rw [hb] at hahead
      exact ⟨h.sourceEnd_eq, h.left_le, hahead⟩

theorem advance : Follows ts sourceEnd b.advance := by
  have hahead := h.ahead_eq
  have hle := h.left_le
  cases hb : b.ahead with
  | nil => rwa [advance_nil hb]
  | cons l rest =>
      rw [advance_cons hb]
      rw [hb] at hahead
      have hpos : 0 < b.left := by
        have := congrArg List.length hahead
        simp at this
        omega
      have hnext : ts.length - (b.left - 1) = ts.length - b.left + 1 := by omega
      refine ⟨h.sourceEnd_eq, Nat.le_trans (Nat.sub_le ..) hle, ?_⟩
      rw [hnext, ← List.tail_drop, ← hahead]
      rfl

end Follows

theorem Move.follows (h : Move b b') (hb : Follows ts sourceEnd b) : Follows ts sourceEnd b' := by
  cases h with
  | advance => exact hb.advance
  | flush => exact hb.flush
  | report p => exact hb.report p
  | finish | level => exact ⟨hb.sourceEnd_eq, hb.left_le, hb.ahead_eq⟩

/-- What has been reported are the problems of `heard`, each about its token among `ts`. -/
structure Reported (ts : List Token) (sourceEnd : Nat) (heard : List Notice) (b : Builder) : Prop where
  diagnostics : b.diagnostics.toList =
    heard.map fun n => diagnosticAt ts sourceEnd (ts.length - n.left) n.problem
  lastReport : b.lastReport = heard.getLast?.map fun n => startOf ts sourceEnd (ts.length - n.left)
  left_le : ∀ n ∈ heard, n.left ≤ ts.length

theorem Reported.congr (h : Reported ts sourceEnd heard b) (hdiagnostics : b'.diagnostics = b.diagnostics)
    (hlast : b'.lastReport = b.lastReport) : Reported ts sourceEnd heard b' :=
  ⟨hdiagnostics ▸ h.diagnostics, hlast ▸ h.lastReport, h.left_le⟩

theorem Reported.flush (h : Reported ts sourceEnd heard b) : Reported ts sourceEnd heard b.flush := by
  refine h.congr ?_ (lastReport_flush b)
  cases hb : b.ahead with
  | nil => rw [flush_nil hb]
  | cons l rest => rw [flush_cons hb]

theorem Reported.report (h : Reported ts sourceEnd heard b) (hb : Follows ts sourceEnd b)
    (hts : StartsApart ts sourceEnd) (p : Problem) :
    Reported ts sourceEnd (hear heard ⟨b.left, p⟩) (b.report p) := by
  have hlength : b.ahead.head?.elim 0 (·.token.size) = ts[ts.length - b.left]?.elim 0 Token.size := by
    rw [← hb.head?_eq]
    cases b.ahead <;> rfl
  have hsame : b.lastReport = some b.pos ↔ heard.getLast?.map Notice.left = some b.left := by
    rw [h.lastReport, hb.pos_eq]
    cases hlast : heard.getLast? with
    | none => simp
    | some n =>
        have hn := h.left_le n (List.mem_of_getLast? hlast)
        have hle := hb.left_le
        simp only [Option.map_some, Option.some.injEq]
        constructor
        · intro heq
          have := hts.startOf_inj (Nat.sub_le ..) (Nat.sub_le ..) heq
          omega
        · intro heq
          rw [heq]
  rw [report_eq, hear]
  by_cases hlast : heard.getLast?.map Notice.left = some b.left
  · rw [if_pos (hsame.2 hlast), if_pos hlast]
    exact ⟨h.diagnostics, (hsame.2 hlast).symm.trans h.lastReport, h.left_le⟩
  · rw [if_neg (mt hsame.1 hlast), if_neg hlast]
    refine ⟨?_, ?_, ?_⟩
    · simp [h.diagnostics, diagnosticAt, hb.pos_eq, hlength]
    · simp [hb.pos_eq]
    · intro n hn
      rcases List.mem_append.1 hn with hn | hn
      · exact h.left_le n hn
      · cases List.mem_singleton.1 hn
        exact hb.left_le

/-- Which of the problems found are reported depends on where they are found alone. -/
theorem Grows.reported (h : Grows base found b b') (hts : StartsApart ts sourceEnd)
    (hb : Follows ts sourceEnd b) (hheard : Reported ts sourceEnd heard b) :
    Reported ts sourceEnd (found.foldl hear heard) b' := by
  induction h generalizing heard with
  | refl => exact hheard
  | trans first _ ih ih' =>
      rw [List.foldl_append]
      exact ih' (first.moves.preserves Move.follows hb) (ih hb hheard)
  | advance b =>
      refine hheard.congr ?_ (lastReport_advance b)
      cases hahead : b.ahead with
      | nil => rw [advance_nil hahead]
      | cons l rest => rw [advance_cons hahead]
  | flush b => exact hheard.flush
  | report b p => exact hheard.report hb hts p
  | finish b kind => exact hheard.congr rfl rfl
  | nested _ _ ih =>
      have hdown := ih ((Move.level _ _).follows hb) (hheard.congr rfl rfl)
      exact hdown.congr rfl rfl
  | mark _ ih => exact ih hb.flush hheard.flush
  | list kind _ _ ih => exact (ih hb.flush hheard.flush).congr rfl rfl
  | emptyList b kind => exact hheard.congr rfl rfl

theorem follows_ofTokens (tokens : List Token) (sourceEnd : Nat) :
    Follows (tokens.filter (!·.isTrivia)) sourceEnd (ofTokens tokens sourceEnd) := by
  have htokens := token_ahead_ofTokens tokens sourceEnd
  have hleft : (ofTokens tokens sourceEnd).left = (tokens.filter (!·.isTrivia)).length := by
    rw [← htokens, List.length_map]
    rfl
  refine ⟨rfl, Nat.le_of_eq hleft, ?_⟩
  rw [htokens, hleft, Nat.sub_self, List.drop_zero]

end Builder

/-! ### Whole sources -/

/-- The problems that the grammar finds in a source, each with the number of the token that it is
about. Blank text is not counted. -/
def Reports (text : String) (problems : List (Nat × Problem)) : Prop :=
  ∃ b, Builder.parse (scan text).tokens.toList text.utf8ByteSize = some b ∧
    b.diagnostics.toList =
      problems.map fun r => diagnosticAt (significant text) text.utf8ByteSize r.1 r.2

theorem reports_of_grows {text : String} {b : Builder} {found : List Notice}
    (hparse : Builder.parse (scan text).tokens.toList text.utf8ByteSize = some b)
    (hgrows : Builder.Grows 0 found (.ofTokens (scan text).tokens.toList text.utf8ByteSize) b) :
    Reports text ((found.foldl hear []).map fun n =>
      ((significant text).length - n.left, n.problem)) := by
  have hstart : Builder.Reported (significant text) text.utf8ByteSize []
      (.ofTokens (scan text).tokens.toList text.utf8ByteSize) :=
    ⟨rfl, rfl, fun _ hn => nomatch hn⟩
  have hend := hgrows.reported (startsApart_significant text) (Builder.follows_ofTokens _ _) hstart
  refine ⟨b, hparse, ?_⟩
  rw [hend.diagnostics, List.map_map]
  rfl

/-- If two sources have the same tokens, blank text and comments apart, then their trees are the same
but for positions and blank text, and the grammar reports the same problems on the same tokens in the
same order. -/
theorem parse_of_significant_eq {text₁ text₂ : String}
    (h : (significant text₁).map (fun t => (t.kind, t.text)) =
      (significant text₂).map fun t => (t.kind, t.text))
    (number₁ number₂ : Nat) (uri₁ uri₂ : String) :
    (Document.parse number₁ uri₁ text₁).tree.sketch =
      (Document.parse number₂ uri₂ text₂).tree.sketch ∧
    ∃ problems, Reports text₁ problems ∧ Reports text₂ problems := by
  obtain ⟨b₁, hparse₁, htree₁, -⟩ := Document.exists_builder number₁ uri₁ text₁
  obtain ⟨b₂, hparse₂, htree₂, -⟩ := Document.exists_builder number₂ uri₂ text₂
  obtain ⟨found, o, hsettled⟩ := Builder.parse_settled hparse₁
  -- the second source looks the same, so the same problems are found and the same sketch is left
  obtain ⟨b, hparse, hgrows₁, hnodes₁⟩ := hsettled _ _ rfl
  cases hparse₁.symm.trans hparse
  obtain ⟨b, hparse, hgrows₂, hnodes₂⟩ :=
    hsettled _ text₂.utf8ByteSize (Builder.sight_ofTokens_eq h.symm _ _)
  cases hparse₂.symm.trans hparse
  have hlength : (significant text₁).length = (significant text₂).length := by
    simpa using congrArg List.length h
  have hsketch {number : Nat} {uri text : String} {b : Builder}
      (htree : b.pending.toList = [(Document.parse number uri text).tree]) :
      b.nodes 0 = [(Document.parse number uri text).tree.sketch] := by
    obtain ⟨_, -, -, -, -, -, _, _, hroot⟩ := Document.exists_builder number uri text
    rw [Builder.nodes, htree, hroot]
    rfl
  refine ⟨?_, _, reports_of_grows hparse₁ hgrows₁, ?_⟩
  · exact List.singleton_inj.1 (((hsketch htree₁).symm.trans hnodes₁).trans
      (hnodes₂.symm.trans (hsketch htree₂)))
  · rw [hlength]
    exact reports_of_grows hparse₂ hgrows₂

/-- A list that is not closed, with and without comments. -/
theorem parse_unclosed_list :
    (significant "<?php $a=[1").map (fun t => (t.kind, t.text)) =
      (significant "<?php\n$a = [ 1 // one\n").map (fun t => (t.kind, t.text)) ∧
    (Document.parse 0 "a" "<?php $a=[1").tree.sketch =
      (Document.parse 1 "b" "<?php\n$a = [ 1 // one\n").tree.sketch ∧
    ∃ problems, Reports "<?php $a=[1" problems ∧ Reports "<?php\n$a = [ 1 // one\n" problems := by
  have h : (significant "<?php $a=[1").map (fun t => (t.kind, t.text)) =
      (significant "<?php\n$a = [ 1 // one\n").map (fun t => (t.kind, t.text)) := by decide +kernel
  exact ⟨h, parse_of_significant_eq h 0 1 "a" "b"⟩

end ArrayShapes.Syntax
