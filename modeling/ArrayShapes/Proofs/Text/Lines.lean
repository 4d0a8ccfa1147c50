import Mathlib.Data.List.TakeWhile
import ArrayShapes.Query
import ArrayShapes.Proofs.Text.Bytes

/-!
Offsets and positions. A text is cut into lines at its line ends, so an offset has one position, and
the position leads back to it. Only an offset between the two characters of one line end is lost.
-/

namespace ArrayShapes.Text

/-! ### Pieces of a text -/

theorem eq_nil_of_byteLength_eq_zero {cs : List Char} (h : byteLength cs = 0) : cs = [] := by
  have := length_le_byteLength cs
  exact List.length_eq_zero_iff.1 (by omega)

/-- Of two ways to cut a text in two, the one that cuts later cuts behind the other. -/
theorem exists_append_of_byteLength_le {as bs cs ds : List Char} (h : as ++ bs = cs ++ ds)
    (hle : byteLength as ≤ byteLength cs) : ∃ es, cs = as ++ es ∧ bs = es ++ ds := by
  rcases List.append_eq_append_iff.1 h with hcs | ⟨es, rfl, rfl⟩
  · exact hcs
  · rw [byteLength_append] at hle
    obtain rfl : es = [] := eq_nil_of_byteLength_eq_zero (by omega)
    exact ⟨[], by simp⟩

/-- Of two ways to cut a text in two, the second cuts at the first one's place or before, or
behind at least one more character. -/
theorem append_eq_append_cases {as bs cs ds : List Char} (h : as ++ bs = cs ++ ds) :
    (∃ es, as = cs ++ es) ∨ ∃ e es, cs = as ++ e :: es ∧ bs = e :: es ++ ds := by
  rcases List.append_eq_append_iff.1 h with ⟨es, rfl, rfl⟩ | ⟨es, rfl, -⟩
  · cases es with
    | nil => exact .inl ⟨[], by simp⟩
    | cons e es => exact .inr ⟨e, es, rfl, rfl⟩
  · exact .inl ⟨es, rfl⟩

theorem isValid_iff_exists_toList {s : String} {offset : Nat} :
    (String.Pos.Raw.mk offset).IsValid s ↔
      ∃ before after, s.toList = before ++ after ∧ offset = byteLength before := by
  rw [String.Pos.Raw.isValid_iff_exists_append]
  constructor
  · rintro ⟨a, c, rfl, ha⟩
    exact ⟨a.toList, c.toList, by simp, by
      rw [byteLength_toList]
      exact congrArg String.Pos.Raw.byteIdx ha⟩
  · rintro ⟨before, after, hs, rfl⟩
    refine ⟨.ofList before, .ofList after, ?_, ?_⟩
    · rw [← String.ofList_append, ← hs, String.ofList_toList]
    · exact String.Pos.Raw.ext (utf8ByteSize_ofList before).symm

theorem slice?_of_toList {s : String} {before mid after : List Char}
    (h : s.toList = before ++ (mid ++ after)) :
    slice? s (byteLength before) (byteLength before + byteLength mid) = some (.ofList mid) := by
  have hs : s = .ofList before ++ .ofList mid ++ .ofList after := by
    rw [← String.ofList_append, ← String.ofList_append, List.append_assoc, ← h,
      String.ofList_toList]
  have hslice := slice?_append (.ofList before) (.ofList mid) (.ofList after)
  rwa [utf8ByteSize_ofList, utf8ByteSize_ofList, ← hs] at hslice

theorem exists_toList_of_slice? {s x : String} {start stop : Nat}
    (h : slice? s start stop = some x) :
    ∃ before after, s.toList = before ++ (x.toList ++ after) ∧ start = byteLength before ∧
      stop = byteLength before + byteLength x.toList := by
  obtain ⟨hstart, hstop, hle, -⟩ := slice?_eq_some_iff.1 h
  obtain ⟨before, _, hs, rfl⟩ := isValid_iff_exists_toList.1 hstart
  obtain ⟨_, after, hs', rfl⟩ := isValid_iff_exists_toList.1 hstop
  obtain ⟨mid, rfl, rfl⟩ := exists_append_of_byteLength_le (hs.symm.trans hs') hle
  rw [byteLength_append, slice?_of_toList hs] at h
  cases h
  exact ⟨before, after, by simpa using hs, rfl, by simp⟩

/-! ### UTF-16 units -/

theorem foldl_units (n : Nat) (cs : List Char) :
    cs.foldl (fun n c => n + if c.toNat < 0x10000 then 1 else 2) n = n + unitLength cs := by
  induction cs generalizing n with
  | nil => rfl
  | cons c cs ih =>
      rw [unitLength, List.foldl_cons, List.foldl_cons, ih, ih]
      omega

@[simp]
theorem unitLength_nil : unitLength [] = 0 := rfl

theorem unitLength_append (cs ds : List Char) :
    unitLength (cs ++ ds) = unitLength cs + unitLength ds := by
  rw [unitLength, List.foldl_append, foldl_units]
  rfl

theorem unitLength_cons (c : Char) (cs : List Char) :
    unitLength (c :: cs) = unitLength [c] + unitLength cs := unitLength_append [c] cs

theorem unitLength_singleton_pos (c : Char) : 0 < unitLength [c] := by
  simp only [unitLength, List.foldl_cons, List.foldl_nil]
  split <;> omega

/-- Two beginnings of one text are the same if they have as many units. -/
theorem eq_of_unitLength_eq {as bs cs ds : List Char} (h : as ++ bs = cs ++ ds)
    (hunits : unitLength as = unitLength cs) : as = cs := by
  induction as generalizing cs with
  | nil =>
      cases cs with
      | nil => rfl
      | cons c cs =>
          have := unitLength_singleton_pos c
          rw [unitLength_cons c cs] at hunits
          simp at hunits
          omega
  | cons a as ih =>
      have := unitLength_singleton_pos a
      rw [unitLength_cons a as] at hunits
      cases cs with
      | nil => simp at hunits; omega
      | cons c cs =>
          rw [List.cons_append, List.cons_append] at h
          obtain ⟨rfl, hrest⟩ := List.cons.inj h
          rw [unitLength_cons a cs] at hunits
          rw [ih hrest (by omega)]

namespace LineMap

/-- The bytes within a column are those of a beginning that has no more units than the column, and
no such beginning has more units than it. -/
theorem exists_bytesWithin (column : Nat) (cs : List Char) :
    ∃ pre post, cs = pre ++ post ∧ bytesWithin column cs = byteLength pre ∧
      unitLength pre ≤ column ∧
      ∀ pre' post', cs = pre' ++ post' → unitLength pre' ≤ column →
        unitLength pre' ≤ unitLength pre := by
  induction cs generalizing column with
  | nil =>
      refine ⟨[], [], rfl, rfl, Nat.zero_le _, ?_⟩
      intro pre' post' h _
      exact Nat.le_of_eq (by rw [(List.append_eq_nil_iff.1 h.symm).1])
  | cons c cs ih =>
      by_cases hc : unitLength [c] ≤ column
      · obtain ⟨pre, post, rfl, hbytes, hunits, hmost⟩ := ih (column - unitLength [c])
        refine ⟨c :: pre, post, rfl, by simp [bytesWithin, hc, hbytes], ?_, ?_⟩
        · rw [unitLength_cons]
          omega
        · intro pre' post' h hunits'
          cases pre' with
          | nil => simp
          | cons c' pre' =>
              obtain ⟨rfl, hrest⟩ := List.cons.inj h
              rw [unitLength_cons] at hunits'
              have := hmost pre' post' hrest (by omega)
              rw [unitLength_cons, unitLength_cons c pre]
              omega
      · refine ⟨[], c :: cs, rfl, by simp [bytesWithin, hc], Nat.zero_le _, ?_⟩
        intro pre' post' h hunits'
        cases pre' with
        | nil => exact Nat.le_refl _
        | cons c' pre' =>
            obtain ⟨rfl, -⟩ := List.cons.inj h
            rw [unitLength_cons] at hunits'
            omega

/-! ### Where lines start -/

/-- The characters that end lines. -/
def isBreak (c : Char) : Bool := c == '\n' || c == '\r'

def Plain (cs : List Char) : Prop := ∀ c ∈ cs, isBreak c = false

theorem plain_nil : Plain [] := by simp [Plain]

/-- The ways to end a line; a carriage return does so alone if no line feed follows it. -/
inductive Ending : (ending after : List Char) → Prop where
  | lineFeed (after : List Char) : Ending ['\n'] after
  | both (after : List Char) : Ending ['\r', '\n'] after
  | carriageReturn {after : List Char} (alone : after.head? ≠ some '\n') : Ending ['\r'] after

theorem Ending.byteLength_pos {ending after : List Char} (h : Ending ending after) :
    0 < byteLength ending := by
  cases h <;> decide

theorem Ending.isBreak {ending after : List Char} (h : Ending ending after) :
    ∀ c ∈ ending, LineMap.isBreak c = true := by
  cases h <;> simp [LineMap.isBreak]

theorem Ending.isBreak_of_append_eq {ending after es : List Char} {e : Char}
    (h : Ending ending after) (heq : ending ++ after = e :: es) : LineMap.isBreak e = true := by
  cases h <;> cases heq <;> rfl

/-- Inside a line end there is one place only. -/
theorem Ending.inside {ending after es back : List Char} {e : Char} (h : Ending ending after)
    (heq : ending ++ after = e :: es ++ back) (hlt : byteLength (e :: es) < byteLength ending) :
    e = '\r' ∧ es = [] ∧ ∃ rest, back = '\n' :: rest := by
  have hpos := e.utf8Size_pos
  rw [byteLength_cons] at hlt
  cases h with
  | lineFeed | carriageReturn =>
      change _ < 1 at hlt
      omega
  | both =>
      change _ < 2 at hlt
      obtain rfl : es = [] := eq_nil_of_byteLength_eq_zero (by omega)
      simp only [List.cons_append, List.nil_append, List.cons.injEq] at heq
      exact ⟨heq.1.symm, rfl, after, heq.2.symm⟩

/-- Whether a line has just ended, between the two parts of a text. -/
def EndsLine (before after : List Char) : Prop :=
  ∃ body ending, before = body ++ ending ∧ Ending ending after

theorem startsFrom_cons {c : Char} (hc : c ≠ '\r') (offset : Nat) (cs : List Char) :
    startsFrom offset (c :: cs) =
      if c = '\n' then (offset + c.utf8Size) :: startsFrom (offset + c.utf8Size) cs
      else startsFrom (offset + c.utf8Size) cs := by
  rw [startsFrom.eq_3 _ _ _ (fun _ h => absurd h hc)]
  simp [hc]

theorem startsFrom_append {body : List Char} (h : Plain body) (offset : Nat) (rest : List Char) :
    startsFrom offset (body ++ rest) = startsFrom (offset + byteLength body) rest := by
  induction body generalizing offset with
  | nil => rfl
  | cons c body ih =>
      have hc : c ≠ '\n' ∧ c ≠ '\r' := by simpa [isBreak] using h c List.mem_cons_self
      rw [List.cons_append, startsFrom_cons hc.2, if_neg hc.1,
        ih fun d hd => h d (List.mem_cons_of_mem c hd), byteLength_cons, Nat.add_assoc]

theorem Ending.startsFrom {ending after : List Char} (h : Ending ending after) (offset : Nat) :
    LineMap.startsFrom offset (ending ++ after) =
      (offset + byteLength ending) :: LineMap.startsFrom (offset + byteLength ending) after := by
  cases h with
  | lineFeed => rw [List.singleton_append, startsFrom_cons (by decide)]; rfl
  | both => rfl
  | carriageReturn alone =>
      cases after with
      | nil => rfl
      | cons c cs =>
          have hc : c ≠ '\n' := by simpa using alone
          rw [List.singleton_append, LineMap.startsFrom.eq_3 _ _ _ (fun _ _ h => hc (by simp_all))]
          rfl

theorem exists_first_line (cs : List Char) :
    Plain cs ∨ ∃ body ending after, cs = body ++ (ending ++ after) ∧ Plain body ∧
      Ending ending after := by
  induction cs with
  | nil => exact .inl plain_nil
  | cons c cs ih =>
      by_cases hfeed : c = '\n'
      · subst hfeed
        exact .inr ⟨[], ['\n'], cs, rfl, plain_nil, .lineFeed cs⟩
      by_cases hreturn : c = '\r'
      · subst hreturn
        refine .inr ⟨[], ?_⟩
        by_cases hnext : cs.head? = some '\n'
        · obtain ⟨after, rfl⟩ := List.head?_eq_some_iff.1 hnext
          exact ⟨['\r', '\n'], after, rfl, plain_nil, .both after⟩
        · exact ⟨['\r'], cs, rfl, plain_nil, .carriageReturn hnext⟩
      have hplain {body : List Char} (h : Plain body) : Plain (c :: body) := by
        intro d hd
        rcases List.mem_cons.1 hd with rfl | hd
        · simp [isBreak, hfeed, hreturn]
        · exact h d hd
      rcases ih with h | ⟨body, ending, after, rfl, h, hending⟩
      · exact .inl (hplain h)
      · exact .inr ⟨c :: body, ending, after, rfl, hplain h, hending⟩

theorem pairwise_startsFrom (offset : Nat) (cs : List Char) :
    (offset :: startsFrom offset cs).Pairwise (· < ·) := by
  have hcons {lo hi : Nat} {rest : List Nat} (hlt : lo < hi) (h : (hi :: rest).Pairwise (· < ·)) :
      (lo :: rest).Pairwise (· < ·) := by
    obtain ⟨hall, hrest⟩ := List.pairwise_cons.1 h
    exact .cons (fun s hs => Nat.lt_trans hlt (hall s hs)) hrest
  have hboth {lo hi : Nat} {rest : List Nat} (hlt : lo < hi) (h : (hi :: rest).Pairwise (· < ·)) :
      (lo :: hi :: rest).Pairwise (· < ·) := by
    obtain ⟨hall, -⟩ := List.pairwise_cons.1 (hcons hlt h)
    refine .cons ?_ h
    intro s hs
    rcases List.mem_cons.1 hs with rfl | hs
    · exact hlt
    · exact hall s hs
  fun_induction startsFrom offset cs with
  | case1 => simp
  | case2 offset rest ih => exact hboth (by omega) ih
  | case3 offset c rest _ next hbreak ih => exact hboth (Nat.lt_add_of_pos_right c.utf8Size_pos) ih
  | case4 offset c rest _ next hbreak ih => exact hcons (Nat.lt_add_of_pos_right c.utf8Size_pos) ih

/-! ### One line -/

/-- Line number `line` of a text, between what comes before it and what comes after. -/
structure Line (m : LineMap) (line : Nat) where
  before : List Char
  body : List Char
  ending : List Char
  after : List Char
  text_eq : m.text.toList = before ++ (body ++ (ending ++ after))
  start_eq : m.starts[line]? = some (byteLength before)
  plain : Plain body
  ends : (Ending ending after ∧
      m.starts[line + 1]? = some (byteLength before + byteLength (body ++ ending))) ∨
    (ending = [] ∧ after = [] ∧ m.starts[line + 1]? = none)

theorem exists_line_of_getElem? {cs : List Char} {offset line start : Nat}
    (h : (offset :: startsFrom offset cs)[line]? = some start) :
    ∃ before body ending after, cs = before ++ (body ++ (ending ++ after)) ∧
      start = offset + byteLength before ∧ Plain body ∧
      ((Ending ending after ∧ (offset :: startsFrom offset cs)[line + 1]? =
          some (offset + byteLength before + byteLength (body ++ ending))) ∨
        (ending = [] ∧ after = [] ∧ (offset :: startsFrom offset cs)[line + 1]? = none)) := by
  induction line generalizing cs offset with
  | zero =>
      obtain rfl : offset = start := Option.some.inj h
      refine ⟨[], ?_⟩
      rcases exists_first_line cs with hplain | ⟨body, ending, after, rfl, hplain, hending⟩
      · have hnone : startsFrom offset cs = [] := by
          rw [← List.append_nil cs, startsFrom_append hplain]
          rfl
        exact ⟨cs, [], [], by simp, rfl, hplain, .inr ⟨rfl, rfl, by simp [hnone]⟩⟩
      · refine ⟨body, ending, after, rfl, rfl, hplain, .inl ⟨hending, ?_⟩⟩
        rw [startsFrom_append hplain, hending.startsFrom]
        simp [Nat.add_assoc]
  | succ line ih =>
      rcases exists_first_line cs with hplain | ⟨body, ending, after, rfl, hplain, hending⟩
      · rw [← List.append_nil cs, startsFrom_append hplain] at h
        simp [startsFrom] at h
      · rw [startsFrom_append hplain, hending.startsFrom, List.getElem?_cons_succ] at h ⊢
        obtain ⟨before, body', ending', after', rfl, hstart, hplain', hends⟩ := ih h
        refine ⟨body ++ ending ++ before, body', ending', after', by simp, ?_, hplain', ?_⟩
        · rw [hstart]
          simp [Nat.add_assoc]
        · simpa [Nat.add_assoc] using hends

theorem mem_startsFrom_cons {c : Char} {offset start : Nat} {cs : List Char}
    (h : start ∈ startsFrom (offset + c.utf8Size) cs) : start ∈ startsFrom offset (c :: cs) := by
  by_cases hboth : c = '\r' ∧ ∃ rest, cs = '\n' :: rest
  · obtain ⟨rfl, rest, rfl⟩ := hboth
    exact h
  · rw [startsFrom.eq_3 _ _ _ fun rest hc hcs => hboth ⟨hc, rest, hcs⟩]
    split
    · exact List.mem_cons_of_mem _ h
    · exact h

theorem mem_startsFrom_of_ending {ending after : List Char} (h : Ending ending after)
    (body : List Char) (offset : Nat) :
    offset + byteLength (body ++ ending) ∈ startsFrom offset (body ++ (ending ++ after)) := by
  induction body generalizing offset with
  | nil =>
      rw [List.nil_append, List.nil_append, h.startsFrom]
      exact List.mem_cons_self
  | cons c body ih =>
      rw [List.cons_append, List.cons_append, byteLength_cons, ← Nat.add_assoc]
      exact mem_startsFrom_cons (ih (offset + c.utf8Size))

/-- Lines start behind line ends. -/
theorem mem_startsFrom {offset start : Nat} {cs : List Char} :
    start ∈ startsFrom offset cs ↔ ∃ before after, cs = before ++ after ∧
      start = offset + byteLength before ∧ EndsLine before after := by
  constructor
  · intro h
    obtain ⟨i, hi⟩ := List.mem_iff_getElem?.1 h
    have hlt : i < (startsFrom offset cs).length := (List.getElem?_eq_some_iff.1 hi).1
    obtain ⟨before, body, ending, after, hcs, -, -, hends⟩ := exists_line_of_getElem?
      (List.getElem?_eq_getElem (l := offset :: startsFrom offset cs) (i := i) (by simp; omega))
    rw [List.getElem?_cons_succ, hi] at hends
    rcases hends with ⟨hending, hnext⟩ | ⟨-, -, hnext⟩
    · exact ⟨before ++ body ++ ending, after, by simpa using hcs, by
        rw [Option.some.inj hnext]; simp [Nat.add_assoc], before ++ body, ending, rfl, hending⟩
    · cases hnext
  · rintro ⟨_, after, rfl, rfl, body, ending, rfl, hending⟩
    rw [List.append_assoc]
    exact mem_startsFrom_of_ending hending body offset

theorem exists_line {text : String} {line : Nat} (h : line < (ofText text).lineCount) :
    Nonempty (Line (ofText text) line) := by
  have hget : (0 :: startsFrom 0 text.toList)[line]? = some (0 :: startsFrom 0 text.toList)[line] :=
    List.getElem?_eq_getElem _
  obtain ⟨before, body, ending, after, htext, hstart, hplain, hends⟩ := exists_line_of_getElem? hget
  refine ⟨⟨before, body, ending, after, htext, ?_, hplain, ?_⟩⟩
  · simpa [ofText, hstart] using hget
  · simpa [ofText] using hends

/-! ### The line of an offset -/

theorem pairwise_starts (text : String) : (ofText text).starts.toList.Pairwise (· < ·) :=
  pairwise_startsFrom 0 text.toList

theorem lineOf_eq {text : String} {line start offset : Nat}
    (hstart : (ofText text).starts[line]? = some start) (hle : start ≤ offset)
    (hnext : ∀ next, (ofText text).starts[line + 1]? = some next → offset < next) :
    (ofText text).lineOf offset = line := by
  have hsorted := pairwise_starts text
  rw [← Array.getElem?_toList] at hstart
  simp only [← Array.getElem?_toList] at hnext
  rw [lineOf]
  generalize (ofText text).starts.toList = starts at *
  obtain ⟨hlt, hget⟩ := List.getElem?_eq_some_iff.1 hstart
  have hfirst : ∀ s ∈ starts.take (line + 1), decide (s ≤ offset) = true := by
    intro s hs
    obtain ⟨i, hi, rfl⟩ := List.mem_take_iff_getElem.1 hs
    have hi' : i ≤ line := by omega
    have hmono : starts[i] ≤ starts[line] := by
      rcases Nat.lt_or_eq_of_le hi' with hi' | rfl
      · exact Nat.le_of_lt (List.pairwise_iff_getElem.1 hsorted i line _ hlt hi')
      · exact Nat.le_refl _
    exact decide_eq_true (by omega)
  have hrest : (starts.drop (line + 1)).takeWhile (· ≤ offset) = [] := by
    cases hdrop : starts.drop (line + 1) with
    | nil => rfl
    | cons next rest =>
        have hlater := hnext next (by rw [← List.head?_drop, hdrop]; rfl)
        rw [List.takeWhile_cons, if_neg (by simp; omega)]
  rw [← List.take_append_drop (line + 1) starts, List.takeWhile_append_of_pos hfirst, hrest]
  simp
  omega

theorem exists_lineOf (text : String) (offset : Nat) :
    ∃ start, (ofText text).starts[(ofText text).lineOf offset]? = some start ∧ start ≤ offset ∧
      ∀ next, (ofText text).starts[(ofText text).lineOf offset + 1]? = some next →
        offset < next := by
  have hfirst : (ofText text).starts.toList.takeWhile (· ≤ offset) ≠ [] := by simp [ofText]
  simp only [lineOf, ← Array.getElem?_toList]
  generalize (ofText text).starts.toList = starts at *
  have hsplit := List.takeWhile_append_dropWhile (p := (· ≤ offset)) (l := starts)
  have hin : ∀ s ∈ starts.takeWhile (· ≤ offset), s ≤ offset := by
    intro s hs
    simpa using List.mem_takeWhile_imp hs
  have hout : ∀ next, (starts.dropWhile (· ≤ offset)).head? = some next → offset < next := by
    intro next hnext
    have hnot := List.head?_dropWhile_not (· ≤ offset) starts
    rw [hnext] at hnot
    simpa using hnot
  generalize starts.takeWhile (· ≤ offset) = low, starts.dropWhile (· ≤ offset) = high at *
  subst hsplit
  have hlength := List.length_pos_iff.2 hfirst
  refine ⟨low.getLast hfirst, ?_, hin _ (List.getLast_mem hfirst), ?_⟩
  · rw [List.getElem?_append_left (by omega), ← List.getLast?_eq_getElem?,
      List.getLast?_eq_some_getLast hfirst]
  · intro next hnext
    rw [Nat.sub_add_cancel hlength, List.getElem?_append_right (Nat.le_refl _), Nat.sub_self,
      ← List.head?_eq_getElem?] at hnext
    exact hout next hnext

namespace Line

variable {text : String} {line : Nat} (l : Line (ofText text) line)

theorem slice?_body {pre post : List Char} (h : l.body = pre ++ post) :
    slice? text (byteLength l.before) (byteLength l.before + byteLength pre) =
      some (.ofList pre) := by
  have htext := l.text_eq
  rw [h, List.append_assoc] at htext
  exact slice?_of_toList htext

/-- The offsets up to the end of a line are on it, and their columns count the units before them. -/
theorem positionAt_body {pre post : List Char} (h : l.body = pre ++ post) :
    (ofText text).positionAt (byteLength l.before + byteLength pre) = ⟨line, unitLength pre⟩ := by
  have hsize : text.utf8ByteSize = byteLength l.before + (byteLength l.body +
      (byteLength l.ending + byteLength l.after)) := by
    rw [← byteLength_toList]
    exact (congrArg byteLength l.text_eq).trans (by simp)
  have hbody : byteLength l.body = byteLength pre + byteLength post := by rw [h, byteLength_append]
  have hline : (ofText text).lineOf (byteLength l.before + byteLength pre) = line := by
    apply lineOf_eq l.start_eq (Nat.le_add_right ..)
    intro next hnext
    rcases l.ends with ⟨hending, hnext'⟩ | ⟨-, -, hnone⟩
    · have hpos := hending.byteLength_pos
      cases hnext.symm.trans hnext'
      rw [byteLength_append]
      omega
    · cases hnext.symm.trans hnone
  have hmin : min (byteLength l.before + byteLength pre) (ofText text).text.utf8ByteSize =
      byteLength l.before + byteLength pre := by
    rw [Nat.min_eq_left]
    change _ ≤ text.utf8ByteSize
    omega
  simp only [positionAt, hmin, hline, l.start_eq, Option.getD_some]
  change Position.mk line (((slice? text _ _).map _).getD 0) = _
  rw [l.slice?_body h]
  simp

theorem lineText?_eq : (ofText text).lineText? line = some l.body := by
  have hstop : (ofText text).starts[line + 1]?.getD text.utf8ByteSize =
      byteLength l.before + byteLength (l.body ++ l.ending) := by
    rcases l.ends with ⟨-, hnext⟩ | ⟨hending, hafter, hnone⟩
    · rw [hnext]
      rfl
    · rw [hnone, hending, ← byteLength_toList]
      exact (congrArg byteLength l.text_eq).trans (by simp [hending, hafter])
  have htext : text.toList = l.before ++ ((l.body ++ l.ending) ++ l.after) := by
    rw [List.append_assoc]
    exact l.text_eq
  have htrim : (l.body ++ l.ending).reverse.dropWhile isBreak = l.body.reverse := by
    rw [List.reverse_append, List.dropWhile_append_of_pos]
    · cases hbody : l.body.reverse with
      | nil => rfl
      | cons c cs =>
          have hc : isBreak c = false :=
            l.plain c (List.mem_reverse.1 (hbody ▸ List.mem_cons_self))
          rw [List.dropWhile_cons, if_neg (by simp [hc])]
    · intro c hc
      rcases l.ends with ⟨hending, -⟩ | ⟨hnil, -⟩
      · exact hending.isBreak c (List.mem_reverse.1 hc)
      · rw [hnil] at hc
        cases hc
  rw [lineText?, l.start_eq]
  change (slice? text _ ((ofText text).starts[line + 1]?.getD text.utf8ByteSize)).bind _ = _
  rw [hstop, slice?_of_toList htext]
  change some ((String.ofList (l.body ++ l.ending)).toList.reverse.dropWhile isBreak).reverse = _
  rw [String.toList_ofList, htrim, List.reverse_reverse]

/-- The offset of a column is behind the longest beginning of the line that fits in the column. -/
theorem exists_offsetAt? (column : Nat) :
    ∃ pre post, l.body = pre ++ post ∧
      (ofText text).offsetAt? ⟨line, column⟩ = some (byteLength l.before + byteLength pre) ∧
      unitLength pre ≤ column ∧
      ∀ pre' post', l.body = pre' ++ post' → unitLength pre' ≤ column →
        unitLength pre' ≤ unitLength pre := by
  obtain ⟨pre, post, hbody, hbytes, hunits, hmost⟩ := exists_bytesWithin column l.body
  refine ⟨pre, post, hbody, ?_, hunits, hmost⟩
  simp only [offsetAt?, l.lineText?_eq, l.start_eq, ← hbytes]
  rfl

theorem offsetAt?_unitLength {pre post : List Char} (h : l.body = pre ++ post) :
    (ofText text).offsetAt? ⟨line, unitLength pre⟩ =
      some (byteLength l.before + byteLength pre) := by
  obtain ⟨pre', post', hbody, hoffset, hle, hmost⟩ := l.exists_offsetAt? (unitLength pre)
  have hunits : unitLength pre' = unitLength pre :=
    Nat.le_antisymm hle (hmost pre post h (Nat.le_refl _))
  rw [hoffset, eq_of_unitLength_eq (hbody.symm.trans h) hunits]

end Line

/-! ### From offsets to positions and back -/

/-- `offset` is on a line, at its end at the latest. -/
def OnLine (m : LineMap) (line offset : Nat) : Prop :=
  ∃ start s, m.starts[line]? = some start ∧ slice? m.text start offset = some s ∧ Plain s.toList

/-- `offset` is between the two characters of one line end. -/
def InsideEnding (text : String) (offset : Nat) : Prop :=
  ∃ before after, text.toList = before ++ '\r' :: '\n' :: after ∧ offset = byteLength before + 1

theorem Line.onLine_iff {text : String} {line offset : Nat} (l : Line (ofText text) line) :
    (ofText text).OnLine line offset ↔
      ∃ pre post, l.body = pre ++ post ∧ offset = byteLength l.before + byteLength pre := by
  constructor
  · rintro ⟨start, s, hstart, hslice, hplain⟩
    cases hstart.symm.trans l.start_eq
    obtain ⟨before, after, htext, hbefore, rfl⟩ := exists_toList_of_slice? hslice
    have hcut := l.text_eq.symm.trans htext
    obtain ⟨es, rfl, hrest⟩ := exists_append_of_byteLength_le hcut (Nat.le_of_eq hbefore)
    obtain rfl : es = [] :=
      eq_nil_of_byteLength_eq_zero (by rw [byteLength_append] at hbefore; omega)
    rw [List.nil_append] at hrest
    rcases append_eq_append_cases hrest with ⟨post, hbody⟩ | ⟨e, es, hs, hes⟩
    · exact ⟨s.toList, post, hbody, by simp⟩
    -- the character behind the line is in its end, and the piece has none such
    · have he : isBreak e = false := hplain e (by simp [hs])
      rcases l.ends with ⟨hending, -⟩ | ⟨hending, hafter, -⟩
      · rw [hending.isBreak_of_append_eq hes] at he
        cases he
      · simp [hending, hafter] at hes
  · rintro ⟨pre, post, hbody, rfl⟩
    refine ⟨_, _, l.start_eq, l.slice?_body hbody, ?_⟩
    intro c hc
    rw [String.toList_ofList] at hc
    exact l.plain c (hbody ▸ List.mem_append_left post hc)

/-- Every offset between characters is on the line that it is looked up on, unless it is inside a
line end. -/
theorem exists_line_of_isValid {text : String} {offset : Nat}
    (h : (String.Pos.Raw.mk offset).IsValid text) (hnot : ¬ InsideEnding text offset) :
    ∃ line, ∃ l : Line (ofText text) line, ∃ pre post, l.body = pre ++ post ∧
      offset = byteLength l.before + byteLength pre := by
  obtain ⟨front, back, htext, rfl⟩ := isValid_iff_exists_toList.1 h
  obtain ⟨start, hstart, hle, hnext⟩ := exists_lineOf text (byteLength front)
  generalize (ofText text).lineOf (byteLength front) = line at hstart hnext
  obtain ⟨l⟩ : Nonempty (Line (ofText text) line) :=
    exists_line (Array.getElem?_eq_some_iff.1 hstart).1
  refine ⟨line, l, ?_⟩
  cases hstart.symm.trans l.start_eq
  obtain ⟨pre, rfl, hrest⟩ := exists_append_of_byteLength_le (l.text_eq.symm.trans htext) hle
  rcases append_eq_append_cases hrest with ⟨post, hbody⟩ | ⟨e, es, rfl, hes⟩
  · exact ⟨pre, post, hbody, by simp⟩
  · rcases l.ends with ⟨hending, hnext'⟩ | ⟨hending, hafter, -⟩
    · have hlt := hnext _ hnext'
      simp only [byteLength_append] at hlt
      obtain ⟨rfl, rfl, rest, rfl⟩ := hending.inside hes (by omega)
      refine absurd ⟨l.before ++ l.body, rest, ?_, ?_⟩ hnot
      · simpa using htext
      · rw [← List.append_assoc, byteLength_append]
        rfl
    · simp [hending, hafter] at hes

theorem offsetAt?_positionAt {text : String} {offset : Nat}
    (h : (String.Pos.Raw.mk offset).IsValid text) (hnot : ¬ InsideEnding text offset) :
    (ofText text).offsetAt? ((ofText text).positionAt offset) = some offset := by
  obtain ⟨line, l, pre, post, hbody, rfl⟩ := exists_line_of_isValid h hnot
  rw [l.positionAt_body hbody, l.offsetAt?_unitLength hbody]

theorem offsetAt?_eq_none {text : String} {p : Position} (h : (ofText text).lineCount ≤ p.line) :
    (ofText text).offsetAt? p = none := by
  have hstart : (ofText text).starts[p.line]? = none := Array.getElem?_eq_none h
  simp [offsetAt?, lineText?, hstart]

theorem isSome_offsetAt? (text : String) (p : Position) :
    ((ofText text).offsetAt? p).isSome = true ↔ p.line < (ofText text).lineCount := by
  constructor
  · intro h
    by_contra hline
    rw [offsetAt?_eq_none (Nat.le_of_not_lt hline)] at h
    cases h
  · intro h
    obtain ⟨l⟩ := exists_line h
    obtain ⟨pre, post, -, hoffset, -⟩ := l.exists_offsetAt? p.column
    exact Option.isSome_of_mem hoffset

/-- The offset of a position is on its line, with the largest column that the line has up to that
of the position. -/
theorem offsetAt?_eq_some_iff {text : String} {p : Position} {offset : Nat} :
    (ofText text).offsetAt? p = some offset ↔
      p.line < (ofText text).lineCount ∧ (ofText text).OnLine p.line offset ∧
      ((ofText text).positionAt offset).line = p.line ∧
      ((ofText text).positionAt offset).column ≤ p.column ∧
      ∀ offset', (ofText text).OnLine p.line offset' →
        ((ofText text).positionAt offset').column ≤ p.column →
        ((ofText text).positionAt offset').column ≤ ((ofText text).positionAt offset).column := by
  by_cases hline : p.line < (ofText text).lineCount
  · obtain ⟨l⟩ := exists_line hline
    obtain ⟨pre, post, hbody, hoffset, hle, hmost⟩ := l.exists_offsetAt? p.column
    constructor
    · intro h
      obtain rfl : byteLength l.before + byteLength pre = offset :=
        Option.some.inj (hoffset.symm.trans h)
      rw [l.positionAt_body hbody]
      refine ⟨hline, l.onLine_iff.2 ⟨pre, post, hbody, rfl⟩, rfl, hle, ?_⟩
      intro offset' hon hcolumn
      obtain ⟨pre', post', hbody', rfl⟩ := l.onLine_iff.1 hon
      rw [l.positionAt_body hbody'] at hcolumn ⊢
      exact hmost pre' post' hbody' hcolumn
    · rintro ⟨-, hon, -, hcolumn, hmost'⟩
      obtain ⟨pre', post', hbody', rfl⟩ := l.onLine_iff.1 hon
      have hmost' := hmost' _ (l.onLine_iff.2 ⟨pre, post, hbody, rfl⟩)
      rw [l.positionAt_body hbody'] at hcolumn hmost'
      rw [l.positionAt_body hbody] at hmost'
      have hunits : unitLength pre' = unitLength pre :=
        Nat.le_antisymm (hmost pre' post' hbody' hcolumn) (hmost' hle)
      obtain rfl := eq_of_unitLength_eq (hbody'.symm.trans hbody) hunits
      exact hoffset
  · rw [offsetAt?_eq_none (Nat.le_of_not_lt hline)]
    simp [hline]

theorem mem_starts {text : String} {start : Nat} :
    start ∈ (ofText text).starts.toList ↔ start = 0 ∨
      ∃ before after, text.toList = before ++ after ∧ start = byteLength before ∧
        EndsLine before after := by
  have h : start ∈ startsFrom 0 text.toList ↔ _ := mem_startsFrom
  simp [ofText, h]

/-- The lines of a text start at its beginning and behind each line end. Every offset between
characters comes back from its position, but for those inside a line end. A position has an offset
if and only if its line is there, so a caret is refused for its line alone; the offset is on that
line, with the largest column up to the one asked for. -/
theorem positions_round_trip (number : Nat) (uri text : String) :
    (ofText text).starts.toList.Pairwise (· < ·) ∧
    (∀ start, start ∈ (ofText text).starts.toList ↔ start = 0 ∨
      ∃ before after, text.toList = before ++ after ∧ start = byteLength before ∧
        EndsLine before after) ∧
    (∀ offset, (String.Pos.Raw.mk offset).IsValid text → ¬ InsideEnding text offset →
      (ofText text).offsetAt? ((ofText text).positionAt offset) = some offset) ∧
    (∀ p offset, (ofText text).offsetAt? p = some offset ↔
      p.line < (ofText text).lineCount ∧ (ofText text).OnLine p.line offset ∧
      ((ofText text).positionAt offset).line = p.line ∧
      ((ofText text).positionAt offset).column ≤ p.column ∧
      ∀ offset', (ofText text).OnLine p.line offset' →
        ((ofText text).positionAt offset').column ≤ p.column →
        ((ofText text).positionAt offset').column ≤ ((ofText text).positionAt offset).column) ∧
    (∀ p, ((ofText text).offsetAt? p).isSome = true ↔ p.line < (ofText text).lineCount) ∧
    ∀ caret fault, Query.caretOffset (Syntax.Document.parse number uri text) caret = .error fault →
      (ofText text).lineCount ≤ caret.line - 1 ∧ fault = .pastEnd caret.line uri := by
  refine ⟨pairwise_starts text, fun _ => mem_starts, fun _ => offsetAt?_positionAt,
    fun _ _ => offsetAt?_eq_some_iff, isSome_offsetAt? text, ?_⟩
  intro caret fault h
  have hlines : (Syntax.Document.parse number uri text).lines = ofText text := rfl
  rw [Query.caretOffset, hlines] at h
  by_cases hline : (ofText text).lineCount ≤ caret.line - 1
  · rw [if_pos hline] at h
    cases h
    exact ⟨hline, rfl⟩
  · have hsome := (isSome_offsetAt? text ⟨caret.line - 1, caret.column - 1⟩).2
      (Nat.lt_of_not_le hline)
    obtain ⟨offset, hoffset⟩ := Option.isSome_iff_exists.1 hsome
    rw [if_neg hline, hoffset] at h
    cases h

end LineMap

end ArrayShapes.Text
