import Mathlib.Data.List.Basic
import ArrayShapes.Proofs.Syntax.Formatting

/-!
No problem goes unreported and none is reported twice. The grammar reads from left to right and
keeps quiet if it has already reported at the place where it is, so its reports move strictly
forward. It wraps tokens as an error only where it has just reported, so every error in a tree has
a report that starts where it does.
-/

namespace ArrayShapes.Syntax

namespace Builder

variable {ts : List Token} {sourceEnd base : Nat} {b b' : Builder} {heard : List Notice}

theorem diagnostics_advance (b : Builder) : b.advance.diagnostics = b.diagnostics := by
  cases hb : b.ahead with
  | nil => rw [advance_nil hb]
  | cons l rest => rw [advance_cons hb]

theorem diagnostics_flush (b : Builder) : b.flush.diagnostics = b.diagnostics := by
  cases hb : b.ahead with
  | nil => rw [flush_nil hb]
  | cons l rest => rw [flush_cons hb]

/-! ### Reports move forward -/

/-- Each report has fewer tokens left than the one before, and none has fewer than there are now. -/
structure Forward (heard : List Notice) (left : Nat) : Prop where
  descending : heard.Pairwise fun m n => n.left < m.left
  le_left : ∀ n ∈ heard, left ≤ n.left

theorem Forward.mono {left left' : Nat} (h : Forward heard left) (hle : left' ≤ left) :
    Forward heard left' :=
  ⟨h.descending, fun n hn => Nat.le_trans hle (h.le_left n hn)⟩

theorem Forward.hear {left : Nat} (h : Forward heard left) (p : Problem) :
    Forward (hear heard ⟨left, p⟩) left := by
  by_cases hlast : heard.getLast?.map Notice.left = some left
  · rwa [Syntax.hear, if_pos hlast]
  · rw [Syntax.hear, if_neg hlast]
    -- the last report is not about this token, and the others came before it
    have hlt : ∀ m ∈ heard, left < m.left := by
      intro m hm
      obtain ⟨first, final, rfl⟩ := (List.eq_nil_or_concat' heard).resolve_left (List.ne_nil_of_mem hm)
      have hfinal : left < final.left := by
        have hle := h.le_left final (by simp)
        have hne : final.left ≠ left := by simpa using hlast
        omega
      rcases List.mem_append.1 hm with hm | hm
      · have := (List.pairwise_append.1 h.descending).2.2 m hm final (by simp)
        omega
      · cases List.mem_singleton.1 hm
        exact hfinal
    constructor
    · apply List.pairwise_append.2
      simpa using And.intro h.descending hlt
    · intro n hn
      rcases List.mem_append.1 hn with hn | hn
      · exact h.le_left n hn
      · cases List.mem_singleton.1 hn
        exact Nat.le_refl _

theorem Forward.pairwise_start {left : Nat} (h : Forward heard left)
    (hts : StartsApart ts sourceEnd) (hheard : Reported ts sourceEnd heard b) :
    b.diagnostics.toList.Pairwise (·.start < ·.start) := by
  rw [hheard.diagnostics, List.pairwise_map]
  apply h.descending.imp_of_mem
  intro m n hm hn hlt
  have := hheard.left_le m hm
  exact hts.startOf_lt (Nat.sub_le ..) (by omega)

/-! ### Errors have reports -/

/-- A report starts at `offset`. -/
def ReportsAt (b : Builder) (offset : Nat) : Prop := ∃ d ∈ b.diagnostics.toList, d.start = offset

theorem Reported.reportsAt {offset : Nat} (h : Reported ts sourceEnd heard b)
    (hlast : b.lastReport = some offset) : b.ReportsAt offset := by
  obtain ⟨n, hn, hstart⟩ := Option.map_eq_some_iff.1 (h.lastReport.symm.trans hlast)
  refine ⟨diagnosticAt ts sourceEnd (ts.length - n.left) n.problem, ?_, hstart⟩
  rw [h.diagnostics]
  exact List.mem_map_of_mem (List.mem_of_getLast? hn)

theorem ReportsAt.report {offset : Nat} (h : b.ReportsAt offset) (p : Problem) :
    (b.report p).ReportsAt offset := by
  obtain ⟨d, hd, hstart⟩ := h
  refine ⟨d, ?_, hstart⟩
  rw [report_eq]
  dsimp only
  split
  · exact hd
  · simp [hd]

/-- What is true of the reports while a source is read. -/
structure Heeds (ts : List Token) (sourceEnd : Nat) (heard : List Notice) (b : Builder) : Prop where
  follows : Follows ts sourceEnd b
  reported : Reported ts sourceEnd heard b
  forward : Forward heard b.left
  errors : ∀ t ∈ Tree.preorderList b.pending.toList, t.phraseKind? = some .error →
    b.ReportsAt t.pos

theorem Heeds.placed {more : List Token} (h : Heeds ts sourceEnd heard b)
    (hmove : Move b b') (hplaced : Placed more b b')
    (hdiagnostics : b'.diagnostics = b.diagnostics) (hlast : b'.lastReport = b.lastReport) :
    Heeds ts sourceEnd heard b' where
  follows := hmove.follows h.follows
  reported := h.reported.congr hdiagnostics hlast
  forward := h.forward.mono hmove.left_le
  errors := by
    intro t ht herror
    rw [hplaced.pending, Tree.preorderList_append] at ht
    rcases List.mem_append.1 ht with ht | ht
    · rw [ReportsAt, hdiagnostics]
      exact h.errors t ht herror
    · obtain ⟨id, u, -, rfl⟩ := exists_eq_token_of_mem_leaves ht
      cases herror

/-- A phrase that is finished as an error starts where the last report does. -/
theorem Heeds.finish {kind : PhraseKind} {mark : Nat} (h : Heeds ts sourceEnd heard b)
    (hlast : kind = .error → b.lastReport = some (b.phraseStart mark)) :
    Heeds ts sourceEnd heard (b.finish kind mark) where
  follows := (Move.finish b kind mark).follows h.follows
  reported := h.reported.congr rfl rfl
  forward := h.forward
  errors := by
    intro t ht herror
    rcases mem_preorderList_finish ht with ht | rfl
    · exact h.errors t ht herror
    · have hstart : b.phraseStart mark =
          ((b.pending.toList.drop mark).head?.map Tree.pos).getD b.pos := by
        simp [phraseStart, List.take_of_length_le]
      cases herror
      exact hstart ▸ h.reported.reportsAt (hlast rfl)

theorem Step.heeds (h : Step base b b') (hts : StartsApart ts sourceEnd)
    (hb : ∃ heard, Heeds ts sourceEnd heard b) : ∃ heard, Heeds ts sourceEnd heard b' := by
  obtain ⟨heard, hb⟩ := hb
  cases h with
  | advance =>
      obtain ⟨more, hplaced⟩ := advance_placed b
      exact ⟨heard, hb.placed (.advance b) hplaced (diagnostics_advance b) (lastReport_advance b)⟩
  | flush =>
      obtain ⟨more, hplaced⟩ := flush_placed b
      exact ⟨heard, hb.placed (.flush b) hplaced (diagnostics_flush b) (lastReport_flush b)⟩
  | report p =>
      refine ⟨hear heard ⟨b.left, p⟩, hb.follows.report p, hb.reported.report hb.follows hts p, ?_, ?_⟩
      · rw [left_report]
        exact hb.forward.hear p
      · intro t ht herror
        rw [report_eq] at ht
        exact (hb.errors t ht herror).report p
  | finish above within reported => exact ⟨heard, hb.finish reported⟩
  | descend | ascend =>
      exact ⟨heard, (Move.level b _).follows hb.follows, hb.reported.congr rfl rfl, hb.forward,
        hb.errors⟩

theorem heeds_of_parse {text : String}
    (h : Builder.parse (scan text).tokens.toList text.utf8ByteSize = some b) :
    ∃ heard, Heeds (significant text) text.utf8ByteSize heard b := by
  apply (built_of_parse h).preserves (fun hs => hs.heeds (startsApart_significant text))
  refine ⟨[], follows_ofTokens _ _, ⟨rfl, rfl, ?_⟩, ⟨.nil, ?_⟩, ?_⟩ <;> intro _ h <;> cases h

end Builder

/-- A report of the grammar is about a token, from its start to its end, or about the end of the
source. -/
theorem diagnosticAt_anchored (ts : List Token) (sourceEnd i : Nat) (p : Problem) :
    (∃ t ∈ ts, (diagnosticAt ts sourceEnd i p).start = t.pos ∧
      (diagnosticAt ts sourceEnd i p).length = t.size) ∨
    ((diagnosticAt ts sourceEnd i p).start = sourceEnd ∧
      (diagnosticAt ts sourceEnd i p).length = 0) := by
  cases h : ts[i]? with
  | none => exact .inr (by simp [diagnosticAt, startOf, h])
  | some t => exact .inl ⟨t, List.mem_of_getElem? h, by simp [diagnosticAt, startOf, h]⟩

/-- Of every source, the reports of the grammar start one behind the other, each with a token that
is not blank or at the end. They are in the document with those of the scan, all in the order in
which they start. Every error in the tree has one that starts where it does, so there is none in
the tree of a document without reports. -/
theorem parse_reports (number : Nat) (uri text : String) :
    ∃ b, Builder.parse (scan text).tokens.toList text.utf8ByteSize = some b ∧
      b.diagnostics.toList.Pairwise (·.start < ·.start) ∧
      (∀ d ∈ b.diagnostics.toList,
        (∃ t ∈ significant text, d.start = t.pos ∧ d.length = t.size) ∨
        (d.start = text.utf8ByteSize ∧ d.length = 0)) ∧
      (Document.parse number uri text).diagnostics.Perm
        ((scan text).diagnostics.toList ++ b.diagnostics.toList) ∧
      (Document.parse number uri text).diagnostics.Pairwise (·.start ≤ ·.start) ∧
      (∀ n ∈ (Document.parse number uri text).root.descendants, n.isPhrase .error = true →
        ∃ d ∈ (Document.parse number uri text).diagnostics, d.start = n.pos) ∧
      ((Document.parse number uri text).diagnostics = [] →
        ∀ n ∈ (Document.parse number uri text).root.descendants, n.isPhrase .error = false) := by
  obtain ⟨b, hparse, htree, -⟩ := Document.exists_builder number uri text
  obtain ⟨heard, hheeds⟩ := Builder.heeds_of_parse hparse
  have hdiagnostics : (Document.parse number uri text).diagnostics =
      ((scan text).diagnostics.toList ++ b.diagnostics.toList).mergeSort
        fun a b => a.start ≤ b.start := by
    simp [Document.parse, hparse]
  have hperm : (Document.parse number uri text).diagnostics.Perm
      ((scan text).diagnostics.toList ++ b.diagnostics.toList) :=
    hdiagnostics ▸ List.mergeSort_perm ..
  have hsorted : (Document.parse number uri text).diagnostics.Pairwise (·.start ≤ ·.start) := by
    rw [hdiagnostics]
    apply (List.pairwise_mergeSort _ _ _).imp
    · exact fun h => of_decide_eq_true h
    · intro _ _ _ hab hbc
      exact decide_eq_true (Nat.le_trans (of_decide_eq_true hab) (of_decide_eq_true hbc))
    · intro a b
      simpa using Nat.le_total a.start b.start
  have herrors : ∀ n ∈ (Document.parse number uri text).root.descendants,
      n.isPhrase .error = true →
      ∃ d ∈ (Document.parse number uri text).diagnostics, d.start = n.pos := by
    intro n hn herror
    have hmem : n.tree ∈ Tree.preorderList b.pending.toList := by
      have := List.mem_map_of_mem (f := Node.tree) hn
      rw [Node.map_tree_descendants] at this
      simpa [htree, Tree.preorderList, Document.root] using this
    obtain ⟨d, hd, hstart⟩ := hheeds.errors n.tree hmem (eq_of_beq herror)
    exact ⟨d, hperm.mem_iff.2 (List.mem_append_right _ hd), hstart⟩
  refine ⟨b, hparse, hheeds.forward.pairwise_start (startsApart_significant text) hheeds.reported,
    ?_, hperm, hsorted, herrors, ?_⟩
  · intro d hd
    rw [hheeds.reported.diagnostics] at hd
    obtain ⟨n, -, rfl⟩ := List.mem_map.1 hd
    exact diagnosticAt_anchored ..
  · intro hnone n hn
    cases herror : n.isPhrase .error with
    | false => rfl
    | true =>
        obtain ⟨d, hd, -⟩ := herrors n hn herror
        rw [hnone] at hd
        cases hd

end ArrayShapes.Syntax
