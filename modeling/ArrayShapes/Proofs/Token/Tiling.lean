import ArrayShapes.Proofs.Text.Bytes
import ArrayShapes.Proofs.Token.Cut

/-!
The tokens of a scan tile the source: they stand one after the other without gaps, each begins and
ends between two characters, and together they are the source. `Reads` says what a scan does by
rules that follow the cuts; what holds of every scan is proved by induction on them.
-/

namespace ArrayShapes

open Text

/-- The tokens stand one right after the other, none of them empty, from byte `start` to byte
`stop`. -/
def Tiles (start stop : Nat) : List Token → Prop
  | [] => start = stop
  | t :: ts => t.pos = start ∧ 0 < t.size ∧ Tiles t.stop stop ts

namespace Tiles

variable {start stop : Nat} {ts us : List Token}

theorem front_eq (h : Tiles start stop ts) : ts.head?.elim stop Token.pos = start := by
  cases ts with
  | nil => exact h.symm
  | cons t ts => exact h.1

theorem of_append (h : Tiles start stop (ts ++ us)) :
    ∃ mid, Tiles start mid ts ∧ Tiles mid stop us := by
  induction ts generalizing start with
  | nil => exact ⟨start, rfl, h⟩
  | cons t ts ih =>
      obtain ⟨hpos, hsize, hrest⟩ := h
      obtain ⟨mid, hts, hus⟩ := ih hrest
      exact ⟨mid, ⟨hpos, hsize, hts⟩, hus⟩

theorem append {mid : Nat} (h : Tiles start mid ts) (h' : Tiles mid stop us) :
    Tiles start stop (ts ++ us) := by
  induction ts generalizing start with
  | nil =>
      cases h
      exact h'
  | cons t ts ih => exact ⟨h.1, h.2.1, ih h.2.2⟩

theorem le (h : Tiles start stop ts) : start ≤ stop := by
  induction ts generalizing start with
  | nil => exact Nat.le_of_eq h
  | cons t ts ih =>
      obtain ⟨rfl, -, hrest⟩ := h
      exact Nat.le_trans (Nat.le_add_right _ _) (ih hrest)

theorem stop_le_of_mem {t : Token} (h : Tiles start stop ts) (ht : t ∈ ts) : t.stop ≤ stop := by
  induction ts generalizing start with
  | nil => cases ht
  | cons u ts ih =>
      rcases List.mem_cons.1 ht with rfl | ht
      · exact h.2.2.le
      · exact ih h.2.2 ht

theorem pos_lt_of_mem {t : Token} (h : Tiles start stop ts) (ht : t ∈ ts) : t.pos < stop := by
  induction ts generalizing start with
  | nil => cases ht
  | cons u ts ih =>
      rcases List.mem_cons.1 ht with rfl | ht
      · exact Nat.lt_of_lt_of_le (Nat.lt_add_of_pos_right h.2.1) h.2.2.le
      · exact ih h.2.2 ht

/-- No token is empty, so there is none where nothing is taken. -/
theorem eq_nil (h : Tiles start start ts) : ts = [] := by
  cases ts with
  | nil => rfl
  | cons t ts =>
      have hlt := h.pos_lt_of_mem List.mem_cons_self
      exact absurd h.1 (Nat.ne_of_lt hlt)

/-- The tokens tell where they end. -/
theorem stop_unique {stop' : Nat} (h : Tiles start stop ts) (h' : Tiles start stop' ts) :
    stop = stop' := by
  induction ts generalizing start with
  | nil => exact h.symm.trans h'
  | cons t ts ih => exact ih h.2.2 h'.2.2

theorem stop_of_getLast? {t : Token} (h : Tiles start stop ts) (ht : ts.getLast? = some t) :
    t.stop = stop := by
  induction ts generalizing start with
  | nil => cases ht
  | cons u ts ih =>
      cases ts with
      | nil => cases ht; exact h.2.2
      | cons v ts => exact ih h.2.2 (by simpa using ht)

theorem le_of_mem {n : Nat} (h : Tiles start stop ts) (hn : n ∈ ts.map Token.pos ++ [stop]) :
    start ≤ n := by
  induction ts generalizing start with
  | nil =>
      cases List.mem_singleton.1 hn
      exact Nat.le_of_eq h
  | cons t ts ih =>
      obtain ⟨rfl, -, hrest⟩ := h
      rcases List.mem_cons.1 hn with rfl | hn
      · exact Nat.le_refl _
      · exact Nat.le_trans (Nat.le_add_right _ _) (ih hrest hn)

/-- Tokens are not empty, so each starts behind the one before it. -/
theorem pairwise_pos (h : Tiles start stop ts) :
    (ts.map Token.pos ++ [stop]).Pairwise (· < ·) := by
  induction ts generalizing start with
  | nil => simp
  | cons t ts ih =>
      obtain ⟨-, hsize, hrest⟩ := h
      refine List.pairwise_cons.2 ⟨fun n hn => ?_, ih hrest⟩
      exact Nat.lt_of_lt_of_le (Nat.lt_add_of_pos_right hsize) (hrest.le_of_mem hn)

/-- A token ends where the next one starts, or before. -/
theorem pairwise_stop_le (h : Tiles start stop ts) : ts.Pairwise (·.stop ≤ ·.pos) := by
  induction ts generalizing start with
  | nil => exact .nil
  | cons t ts ih =>
      refine .cons (fun u hu => ?_) (ih h.2.2)
      exact h.2.2.le_of_mem (List.mem_append_left _ (List.mem_map_of_mem hu))

/-- From the start of the first token to the end of the last there are the texts of all of them. -/
theorem slice? {source : String} (h : Tiles start stop ts)
    (hstart : (String.Pos.Raw.mk start).IsValid source)
    (hts : ∀ t ∈ ts, Text.slice? source t.pos t.stop = some t.text) :
    Text.slice? source start stop = some (String.join (ts.map Token.text)) := by
  induction ts generalizing start with
  | nil =>
      cases h
      exact slice?_self hstart
  | cons t ts ih =>
      obtain ⟨rfl, -, hrest⟩ := h
      have hfirst := hts t List.mem_cons_self
      have hmid := (slice?_eq_some_iff.1 hfirst).2.1
      rw [List.map_cons, String.join_cons]
      exact slice?_trans hfirst (ih hrest hmid fun u hu => hts u (List.mem_cons_of_mem t hu))

end Tiles

namespace Scan

/-- From byte `pos` on, `cs` is cut into tokens in `mode`, with the problems found on the way. Each
token is as long as its cut says. -/
inductive Reads : Mode → Nat → List Char → List Token → List Diagnostic → Prop
  | done {mode pos} : Reads mode pos [] [] []
  | next {mode pos cs ts ds} (fits : (Mode.cut mode cs).Fits cs)
      (rest : Reads (mode.cut cs).mode (pos + byteLength (cs.take (mode.cut cs).length))
        (cs.drop (mode.cut cs).length) ts ds) :
      Reads mode pos cs
        (⟨(mode.cut cs).kind, pos, String.ofList (cs.take (mode.cut cs).length)⟩ :: ts)
        ((mode.cut cs).faults.map (·.diagnostic pos cs) ++ ds)

theorem fromMode_reads (mode : Mode) (pos : Nat) (cs : List Char) (done : Scanned) :
    ∃ ts ds, Reads mode pos cs ts ds ∧
      fromMode mode pos cs done = ⟨done.tokens ++ ts.toArray, done.diagnostics ++ ds.toArray⟩ := by
  fun_induction fromMode mode pos cs done with
  | case1 mode pos done => exact ⟨[], [], .done, by simp⟩
  | case2 mode pos done c rest cut text faults ih =>
      have hfits : cut.Fits (c :: rest) := mode.cut_fits (by simp)
      -- the first character is taken in any case, so the scan goes on with the rest of it
      obtain ⟨n, hn⟩ : ∃ n, cut.length = n + 1 := ⟨cut.length - 1, by have := hfits.pos; omega⟩
      have htext : text = String.ofList ((c :: rest).take cut.length) := by simp [text, hn]
      have hrest : rest.drop (cut.length - 1) = (c :: rest).drop cut.length := by simp [hn]
      obtain ⟨ts, ds, hreads, heq⟩ := ih
      rw [hrest, htext, utf8ByteSize_ofList] at hreads
      refine ⟨_, _, .next hfits hreads, ?_⟩
      rw [heq]
      simp [htext, faults, cut]

theorem scan_reads (source : String) :
    Reads .markup 0 source.toList (scan source).tokens.toList (scan source).diagnostics.toList := by
  obtain ⟨ts, ds, hreads, heq⟩ := fromMode_reads .markup 0 source.toList ⟨#[], #[]⟩
  simpa [scan, heq] using hreads

theorem markup_not_isTrivia (cs : List Char) : (markup cs).kind.isTrivia = false := by
  unfold markup
  split
  · unfold openTag
    split
    · rfl
    · split <;> rfl
  · rfl

namespace Reads

variable {mode : Mode} {pos : Nat} {cs : List Char} {ts : List Token} {ds : List Diagnostic}

theorem tiles (h : Reads mode pos cs ts ds) : Tiles pos (pos + byteLength cs) ts := by
  induction h with
  | done => simp [Tiles]
  | @next mode pos cs ts ds hfits _ ih =>
      refine ⟨rfl, ?_, ?_⟩
      · have hlen : ((cs.take (mode.cut cs).length)).length = (mode.cut cs).length :=
          List.length_take_of_le hfits.le
        have hbytes := length_le_byteLength (cs.take (mode.cut cs).length)
        have := hfits.pos
        simp only [Token.size, utf8ByteSize_ofList]
        omega
      · have := byteLength_take_add_drop (mode.cut cs).length cs
        simp only [Token.stop, Token.size, utf8ByteSize_ofList]
        rwa [Nat.add_assoc, this] at ih

theorem text (h : Reads mode pos cs ts ds) : ts.flatMap (·.text.toList) = cs := by
  induction h with
  | done => rfl
  | next _ _ ih => simp [ih]

/-- The text in front of `cs` does not matter for what is read, except for where it is. -/
theorem slice (h : Reads mode pos cs ts ds) (before : List Char) (hpos : pos = byteLength before) :
    ∀ t ∈ ts, slice? (String.ofList (before ++ cs)) t.pos t.stop = some t.text := by
  induction h generalizing before with
  | done => simp
  | @next mode pos cs ts ds hfits _ ih =>
      intro t ht
      rcases List.mem_cons.1 ht with rfl | ht
      · have := slice?_append (String.ofList before) (String.ofList (cs.take (mode.cut cs).length))
          (String.ofList (cs.drop (mode.cut cs).length))
        rw [← String.ofList_append, ← String.ofList_append, List.append_assoc,
          List.take_append_drop] at this
        simpa [Token.stop, Token.size, hpos] using this
      · have := ih (before ++ cs.take (mode.cut cs).length) (by simp [hpos]) t ht
        rwa [List.append_assoc, List.take_append_drop] at this

/-- A source starts outside of code, so not with blank text. -/
theorem head_not_isTrivia (h : Reads .markup pos cs ts ds) :
    ∀ t, ts.head? = some t → t.isTrivia = false := by
  intro t ht
  cases h with
  | done => cases ht
  | next =>
      cases ht
      exact markup_not_isTrivia cs

theorem diagnostics_within (h : Reads mode pos cs ts ds) :
    ∀ d ∈ ds, d.start + d.length ≤ pos + byteLength cs := by
  induction h with
  | done => simp
  | @next mode pos cs ts ds hfits _ ih =>
      intro d hd
      rcases List.mem_append.1 hd with hd | hd
      · obtain ⟨f, _, rfl⟩ := List.mem_map.1 hd
        have hstart := byteLength_take_add_drop f.start cs
        have hlength := byteLength_take_add_drop f.length (cs.drop f.start)
        simp only [Fault.diagnostic]
        omega
      · have := ih d hd
        have := byteLength_take_add_drop (mode.cut cs).length cs
        omega

end Reads

end Scan

/-- The scan of a source takes it apart into tokens that tile it: from the first byte to the last,
each between two characters and with the text that stands there, and all texts together are the
source. What the scan reports lies within the source. -/
theorem scan_tiles_source (source : String) :
    Scan.Reads .markup 0 source.toList (scan source).tokens.toList
      (scan source).diagnostics.toList ∧
    Tiles 0 source.utf8ByteSize (scan source).tokens.toList ∧
    (∀ t ∈ (scan source).tokens, slice? source t.pos t.stop = some t.text) ∧
    String.join ((scan source).tokens.toList.map Token.text) = source ∧
    ∀ d ∈ (scan source).diagnostics, d.start + d.length ≤ source.utf8ByteSize := by
  have h := Scan.scan_reads source
  refine ⟨h, ?_, ?_, ?_, ?_⟩
  · simpa [byteLength_toList] using h.tiles
  · intro t ht
    simpa using h.slice [] rfl t (by simpa using ht)
  · apply String.toList_inj.1
    rw [String.toList_join, List.flatMap_map]
    exact h.text
  · intro d hd
    simpa [byteLength_toList] using h.diagnostics_within d (by simpa using hd)

end ArrayShapes
