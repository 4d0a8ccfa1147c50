import Mathlib.Logic.Relation
import ArrayShapes.Proofs.Doc.Advance
import ArrayShapes.Proofs.Text.Bytes

/-!
Reading type expressions always comes to an end, and always moves on. A rule refers to the rules on
shorter texts only, each of them an end of its own text, so the fuel never runs out. A base that is
read has taken a character, so nothing is given up for having taken none.
-/

namespace ArrayShapes.Doc.Expression

open Text

variable {rules rules' : Rules} {cs cs' rest : List Char}

/-! ### Taking characters -/

/-- What is left of a text of which something has been taken. -/
structure Shorter (rest cs : List Char) : Prop where
  suffix : rest <:+ cs
  length_lt : rest.length < cs.length

namespace Shorter

theorem of_cons {c : Char} (h : c :: rest <:+ cs) : Shorter rest cs where
  suffix := (List.suffix_cons c rest).trans h
  length_lt := h.length_le

theorem trans_suffix (h : Shorter cs' cs) (hrest : rest <:+ cs') : Shorter rest cs where
  suffix := hrest.trans h.suffix
  length_lt := Nat.lt_of_le_of_lt hrest.length_le h.length_lt

theorem of_suffix (h : Shorter rest cs') (hcs : cs' <:+ cs) : Shorter rest cs where
  suffix := h.suffix.trans hcs
  length_lt := Nat.lt_of_lt_of_le h.length_lt hcs.length_le

end Shorter

theorem dropWhite_suffix (cs : List Char) : dropWhite cs <:+ cs := (moves_dropWhite cs).isSuffix

theorem skipTrivia_suffix (cs : List Char) : skipTrivia cs <:+ cs := (moves_skipTrivia cs).isSuffix

theorem shorter_of_punctuation? {c : Char} (h : punctuation? c cs = some rest) : Shorter rest cs := by
  obtain ⟨after, hdrop, rfl⟩ := exists_of_punctuation? h
  have hafter : Shorter after cs := .of_cons (hdrop ▸ dropWhite_suffix cs)
  exact hafter.trans_suffix (dropWhite_suffix after)

theorem shorter_of_name? {name : String} (h : name? cs = some (name, rest)) : Shorter rest cs := by
  cases cs with
  | nil => simp [name?] at h
  | cons c cs =>
      rw [name?] at h
      split at h
      next =>
        obtain rfl : (nameTail cs).2 = rest := by simp_all
        exact (Shorter.of_cons List.suffix_rfl).trans_suffix (moves_nameTail cs).isSuffix
      next => cases h

theorem shorter_of_key? {key : String} (h : key? cs = some (key, rest)) : Shorter rest cs := by
  simp only [key?, Option.bind_eq_bind, Option.bind_eq_some_iff, Option.pure_def, Option.some.injEq,
    Prod.mk.injEq] at h
  obtain ⟨⟨content, after⟩, htext, colon, hcolon, -, rfl⟩ := h
  have hafter : after <:+ cs := (moves_keyText htext).isSuffix.trans (skipTrivia_suffix cs)
  refine (shorter_of_punctuation? hcolon).of_suffix (List.IsSuffix.trans ?_ hafter)
  have hdrop := dropWhite_suffix after
  split
  next heq => exact (List.suffix_cons _ _).trans (heq ▸ hdrop)
  next => exact hdrop

section Advance

variable (hrules : Advance rules)
include hrules

theorem suffix_of_rules {rule : Rule} {s : Option Shape} (h : rules rule cs = (s, rest)) :
    rest <:+ cs :=
  (hrules h).isSuffix

/-- A base that is read has taken a character. -/
theorem shorter_of_base {s : Shape} (h : base rules cs = (some s, rest)) : Shorter rest cs := by
  cases cs with
  | nil => cases h
  | cons c cs =>
      have hc : Shorter cs (c :: cs) := .of_cons List.suffix_rfl
      rw [base] at h
      split at h
      next =>
        obtain ⟨-, rfl⟩ := Prod.mk.inj h
        exact hc.trans_suffix (suffix_of_rules hrules rfl)
      next =>
        split at h
        next =>
          split at h
          next htail =>
            obtain ⟨-, rfl⟩ := Prod.mk.inj h
            exact hc.trans_suffix ((dropWhite_suffix _).trans (quotedTail?_suffix htail))
          next => cases h
        next =>
          split at h
          next name after hname =>
            have hnamed := (moves_named hrules name after).isSuffix
            rw [h] at hnamed
            exact (shorter_of_name? hname).trans_suffix hnamed
          next => cases h

theorem shorter_of_single {s : Shape} (h : single rules cs = (some s, rest)) : Shorter rest cs := by
  simp only [single] at h
  split at h
  next => cases h
  next s' after hbase =>
    split at h
    next =>
      obtain ⟨-, rfl⟩ := Prod.mk.inj h
      exact ((shorter_of_base hrules hbase).trans_suffix (moves_suffix s' after).isSuffix).of_suffix
        (skipTrivia_suffix cs)
    next => cases h

theorem shorter_of_multi {s : Shape} (h : multi rules cs = (some s, rest)) : Shorter rest cs := by
  simp only [multi] at h
  split at h
  next => cases h
  next s' after hsingle =>
    obtain ⟨-, rfl⟩ := Prod.mk.inj h
    exact (shorter_of_single hrules hsingle).trans_suffix (moves_others hrules after).isSuffix

end Advance

/-! ### Where the cursor gets -/

/-- A character that is taken alone: the mark of what may be null or missing, the brace of a record, or
an opening quote. -/
def isMark (c : Char) : Bool := c == '?' || c == '{' || isQuote c

/-- The functions that move on in a text. -/
inductive Routine where
  | mark
  | white
  | trivia
  | punctuation (c : Char)
  | name
  | quoted (quote : Char)
  | keyText
  | key
  | closed
  | brackets (s : Shape)
  | suffix (s : Shape)
  | arguments
  | entries
  | record
  | named (word : String)
  | base
  | single
  | others
  | rule (r : Rule)

/-- What a function leaves over of a text, unless it leaves all of it because it finds nothing. -/
def Routine.left? (rules : Rules) : Routine → List Char → Option (List Char)
  | .mark, [] => none
  | .mark, c :: cs => if isMark c then some cs else none
  | .white, cs => some (dropWhite cs)
  | .trivia, cs => some (skipTrivia cs)
  | .punctuation c, cs => punctuation? c cs
  | .name, cs => (name? cs).map Prod.snd
  | .quoted quote, cs => (quotedTail? quote cs).map Prod.snd
  | .keyText, cs => (keyText? cs).map Prod.snd
  | .key, cs => (key? cs).map Prod.snd
  | .closed, cs => some (skipClosed 0 none false cs).2
  | .brackets s, cs => some (Expression.brackets s cs).2
  | .suffix s, cs => some (Expression.suffix s cs).2
  | .arguments, cs => some (Expression.arguments rules cs).2
  | .entries, cs => some (Expression.entries rules cs).2
  | .record, cs => some (Expression.record rules cs).2
  | .named word, cs => some (Expression.named rules word cs).2
  | .base, cs => some (Expression.base rules cs).2
  | .single, cs => some (Expression.single rules cs).2
  | .others, cs => some (Expression.others rules cs).2
  | .rule r, cs => some (rules r cs).2

theorem Routine.left?_suffix (hrules : Advance rules) {routine : Routine}
    (h : routine.left? rules cs = some rest) : rest <:+ cs := by
  cases routine with
  | mark =>
      cases cs with
      | nil => cases h
      | cons c cs =>
          rw [left?] at h
          split at h
          next => exact Option.some.inj h ▸ List.suffix_cons c cs
          next => cases h
  | white => exact Option.some.inj h ▸ dropWhite_suffix cs
  | trivia => exact Option.some.inj h ▸ skipTrivia_suffix cs
  | punctuation c => exact (shorter_of_punctuation? h).suffix
  | name =>
      obtain ⟨⟨name, rest⟩, hname, rfl⟩ := Option.map_eq_some_iff.1 h
      exact (shorter_of_name? hname).suffix
  | quoted quote =>
      obtain ⟨⟨content, rest⟩, htail, rfl⟩ := Option.map_eq_some_iff.1 h
      exact quotedTail?_suffix htail
  | keyText =>
      obtain ⟨⟨content, rest⟩, htext, rfl⟩ := Option.map_eq_some_iff.1 h
      exact (moves_keyText htext).isSuffix
  | key =>
      obtain ⟨⟨key, rest⟩, hkey, rfl⟩ := Option.map_eq_some_iff.1 h
      exact (shorter_of_key? hkey).suffix
  | closed => exact Option.some.inj h ▸ (Closing.skipped cs).isSuffix
  | brackets s => exact Option.some.inj h ▸ (moves_brackets s cs).isSuffix
  | suffix s => exact Option.some.inj h ▸ (moves_suffix s cs).isSuffix
  | arguments => exact Option.some.inj h ▸ (moves_arguments hrules cs).isSuffix
  | entries => exact Option.some.inj h ▸ (moves_entries hrules cs).isSuffix
  | record =>
      obtain ⟨after, hclose, hleft⟩ := closing_record rules cs
      have hafter := hclose.isSuffix.trans (moves_afterEntries hrules cs).isSuffix
      cases h
      rcases hleft with hleft | hleft
      · exact hleft ▸ hafter
      · exact hleft ▸ (dropWhite_suffix after).trans hafter
  | named word => exact Option.some.inj h ▸ (moves_named hrules word cs).isSuffix
  | base => exact Option.some.inj h ▸ (moves_base hrules cs).isSuffix
  | single => exact Option.some.inj h ▸ (moves_single hrules cs).isSuffix
  | others => exact Option.some.inj h ▸ (moves_others hrules cs).isSuffix
  | rule r => exact Option.some.inj h ▸ suffix_of_rules hrules rfl

/-- The cursor gets from one text to another by functions that leave over what the next one is given. -/
def Visits (rules : Rules) : List Char → List Char → Prop :=
  Relation.ReflTransGen fun cs rest => ∃ routine : Routine, routine.left? rules cs = some rest

namespace Visits

theorem of_left? (routine : Routine) (h : routine.left? rules cs = some rest) :
    Visits rules cs rest :=
  .single ⟨routine, h⟩

theorem trans (h : Visits rules cs cs') (h' : Visits rules cs' rest) : Visits rules cs rest :=
  Relation.ReflTransGen.trans h h'

theorem suffix (hrules : Advance rules) (h : Visits rules cs rest) : rest <:+ cs := by
  induction h with
  | refl => exact List.suffix_rfl
  | tail _ hstep ih =>
      obtain ⟨routine, hroutine⟩ := hstep
      exact (Routine.left?_suffix hrules hroutine).trans ih

theorem white (cs : List Char) : Visits rules cs (dropWhite cs) := of_left? .white rfl

theorem punctuation {c : Char} (h : punctuation? c cs = some rest) : Visits rules cs rest :=
  of_left? (.punctuation c) h

theorem mark {c : Char} (h : isMark c = true) (cs : List Char) : Visits rules (c :: cs) cs :=
  of_left? .mark (if_pos h)

theorem name {name : String} (h : name? cs = some (name, rest)) : Visits rules cs rest :=
  of_left? .name (congrArg (Option.map Prod.snd) h)

theorem key {key : String} (h : key? cs = some (key, rest)) : Visits rules cs rest :=
  of_left? .key (congrArg (Option.map Prod.snd) h)

theorem rule {rule : Rule} {s : Option Shape} (h : rules rule cs = (s, rest)) :
    Visits rules cs rest :=
  of_left? (.rule rule) (congrArg (some ∘ Prod.snd) h)

theorem single {s : Option Shape} (h : single rules cs = (s, rest)) : Visits rules cs rest :=
  of_left? .single (congrArg (some ∘ Prod.snd) h)

end Visits

/-! ### What the rules refer to -/

/-- The rules do the same wherever the cursor gets from a text. -/
def AgreeOn (cs : List Char) (rules rules' : Rules) : Prop :=
  ∀ ⦃rule cs'⦄, Visits rules cs cs' → rules rule cs' = rules' rule cs'

/-- The rules do the same where the cursor has taken something. -/
def AgreeBelow (cs : List Char) (rules rules' : Rules) : Prop :=
  ∀ ⦃rule cs'⦄, Visits rules cs cs' → cs'.length < cs.length → rules rule cs' = rules' rule cs'

theorem AgreeOn.mono (h : AgreeOn cs rules rules') (hvisits : Visits rules cs cs') :
    AgreeOn cs' rules rules' :=
  fun _ _ hvisits' => h (hvisits.trans hvisits')

theorem AgreeOn.below (h : AgreeOn cs rules rules') : AgreeBelow cs rules rules' :=
  fun _ _ hvisits _ => h hvisits

theorem AgreeBelow.agreeOn (hrules : Advance rules) (h : AgreeBelow cs rules rules')
    (hvisits : Visits rules cs cs') (hlt : cs'.length < cs.length) : AgreeOn cs' rules rules' :=
  fun _ _ hvisits' =>
    h (hvisits.trans hvisits') (Nat.lt_of_le_of_lt (hvisits'.suffix hrules).length_le hlt)

/-- One rule, in terms of all of them. -/
def body (rules : Rules) : Rule → List Char → Reading
  | .single => single rules
  | .multi => multi rules

theorem arguments_congr (h : AgreeOn cs rules rules') : arguments rules cs = arguments rules' cs := by
  fun_induction arguments rules cs with
  | case1 cs rest hmulti => rw [arguments, ← h .refl, hmulti]
  | case2 cs s rest hmulti hcomma =>
      rw [arguments, ← h .refl, hmulti]
      simp only [hcomma]
  | case3 cs s rest hmulti after hcomma hlt ss left heq ih =>
      have hafter := (Visits.rule hmulti).trans (.punctuation hcomma)
      rw [arguments, ← h .refl, hmulti]
      simp only [hcomma, if_pos hlt, ← ih (h.mono hafter), heq]
  | case4 cs s rest hmulti after hcomma hlt =>
      rw [arguments, ← h .refl, hmulti]
      simp only [hcomma, if_neg hlt]

theorem entries_congr (h : AgreeOn cs rules rules') : entries rules cs = entries rules' cs := by
  fun_induction entries rules cs with
  | case1 cs hkey => rw [entries, hkey]
  | case2 cs key value hkey rest hmulti =>
      rw [entries, hkey]
      simp only [← h (.key hkey), hmulti]
  | case3 cs key value hkey s rest hmulti hcomma =>
      rw [entries, hkey]
      simp only [← h (.key hkey), hmulti, hcomma]
  | case4 cs key value hkey s rest hmulti after hcomma hlt es left heq ih =>
      have hafter := (Visits.key hkey).trans ((Visits.rule hmulti).trans (.punctuation hcomma))
      rw [entries, hkey]
      simp only [← h (.key hkey), hmulti, hcomma, if_pos hlt, ← ih (h.mono hafter), heq]
  | case5 cs key value hkey s rest hmulti after hcomma hlt =>
      rw [entries, hkey]
      simp only [← h (.key hkey), hmulti, hcomma, if_neg hlt]

theorem named_congr (h : AgreeOn cs rules rules') (name : String) :
    named rules name cs = named rules' name cs := by
  rw [named, named]
  cases hopen : punctuation? '<' cs with
  | some rest => simp only [arguments_congr (h.mono (.punctuation hopen))]
  | none =>
      dsimp only
      split
      next rest heq =>
        have hbrace : Visits rules (dropWhite cs) rest := heq ▸ .mark rfl rest
        have hrest := (Visits.white cs).trans (hbrace.trans (.white rest))
        simp only [record, entries_congr (h.mono hrest)]
      next => rfl

section Congruence

variable (hrules : Advance rules)
include hrules

/-- A base refers to the rules behind its first character only. -/
theorem base_congr (h : AgreeBelow cs rules rules') : base rules cs = base rules' cs := by
  cases cs with
  | nil => rfl
  | cons c cs =>
      rw [base, base]
      by_cases hc : c == '?'
      · have hmark : isMark c = true := by simp [isMark, hc]
        rw [if_pos hc, if_pos hc, h (.mark hmark cs) (Nat.lt_succ_self _)]
      · rw [if_neg hc, if_neg hc]
        cases hname : name? (c :: cs) with
        | none => rfl
        | some r =>
            have hafter := h.agreeOn hrules (.name hname) (shorter_of_name? hname).length_lt
            simp only [named_congr hafter]

theorem single_congr (h : AgreeBelow cs rules rules') : single rules cs = single rules' cs := by
  have hbase : base rules (skipTrivia cs) = base rules' (skipTrivia cs) := by
    refine base_congr hrules fun _ cs' hcs' hlt => h ?_ ?_
    · exact (Visits.of_left? .trivia rfl).trans hcs'
    · exact Nat.lt_of_lt_of_le hlt (skipTrivia_suffix cs).length_le
  simp only [single, hbase]

theorem others_congr (h : AgreeOn cs rules rules') : others rules cs = others rules' cs := by
  have hsingle {cs cs' : List Char} (h : AgreeOn cs rules rules') (hcs : Visits rules cs cs') :
      single rules cs' = single rules' cs' :=
    single_congr hrules (h.mono hcs).below
  fun_induction others rules cs with
  | case1 cs hbar => rw [others, hbar]
  | case2 cs after hbar rest heq =>
      rw [others, hbar]
      simp only [← hsingle h (.punctuation hbar), heq]
  | case3 cs after hbar s rest heq hlt ss left hothers ih =>
      have hrest := (Visits.punctuation hbar).trans (.single heq)
      rw [others, hbar]
      simp only [← hsingle h (.punctuation hbar), heq, if_pos hlt, ← ih (h.mono hrest), hothers]
  | case4 cs after hbar s rest heq hlt =>
      rw [others, hbar]
      simp only [← hsingle h (.punctuation hbar), heq, if_neg hlt]

theorem body_congr (h : AgreeBelow cs rules rules') (rule : Rule) :
    body rules rule cs = body rules' rule cs := by
  have hsingle := single_congr hrules h
  cases rule with
  | single => exact hsingle
  | multi =>
      simp only [body, multi, ← hsingle]
      cases heq : single rules cs with
      | mk s rest =>
          cases s with
          | none => rfl
          | some s =>
              have hrest := h.agreeOn hrules (.single heq) (shorter_of_single hrules heq).length_lt
              simp only [others_congr hrules hrest]

end Congruence

/-! ### Fuel -/

/-- The rules with fuel for the text that they are given. -/
def reader : Rules := fun rule cs => run (cs.length + 1) rule cs

theorem run_succ (fuel : Nat) (rule : Rule) (cs : List Char) :
    run (fuel + 1) rule cs = body (run fuel) rule cs := by
  cases rule <;> rfl

/-- Induction on the length of the text: more fuel than that changes nothing. -/
theorem run_eq_reader {fuel : Nat} {cs : List Char} (hfuel : cs.length < fuel) (rule : Rule) :
    run fuel rule cs = reader rule cs := by
  induction hn : cs.length using Nat.strongRecOn generalizing fuel rule cs with
  | ind n ih =>
      obtain ⟨fuel, rfl⟩ : ∃ k, fuel = k + 1 := Nat.exists_eq_succ_of_ne_zero (by omega)
      have hreader {fuel : Nat} (hfuel : cs.length ≤ fuel) {cs' : List Char} {rule : Rule}
          (hlt : cs'.length < cs.length) : run fuel rule cs' = reader rule cs' :=
        ih _ (hn ▸ hlt) (Nat.lt_of_lt_of_le hlt hfuel) rule rfl
      rw [reader, run_succ, run_succ]
      refine body_congr (advance_run fuel) (fun rule cs' _ hlt => ?_) rule
      rw [hreader (Nat.le_of_lt_succ hfuel) hlt, hreader (Nat.le_refl _) hlt]

theorem advance_reader : Advance reader := fun _ _ _ _ h => advance_run _ h

/-- What is read of a text is settled by what is read where the cursor gets once it has taken
something. -/
theorem body_eq_reader (h : AgreeBelow cs reader rules) (rule : Rule) :
    body rules rule cs = reader rule cs := by
  have hrun : body (run cs.length) rule cs = body reader rule cs :=
    body_congr (advance_run _) (fun _ _ _ hlt => run_eq_reader hlt _) rule
  rw [← body_congr advance_reader h, ← hrun, ← run_succ, reader]

/-! ### Offsets -/

/-- How many bytes of a text are in front of what is left over. -/
def offsetOf (text : String) (rest : List Char) : Nat := text.utf8ByteSize - byteLength rest

theorem offsetOf_isValid {text : String} (h : rest <:+ text.toList) :
    (String.Pos.Raw.mk (offsetOf text rest)).IsValid text := by
  obtain ⟨front, hfront⟩ := h
  have htext : text = String.ofList front ++ String.ofList rest := by
    rw [← String.ofList_append, hfront, String.ofList_toList]
  have hsize : text.utf8ByteSize = byteLength front + byteLength rest := by
    rw [← byteLength_toList, ← hfront, byteLength_append]
  refine String.Pos.Raw.isValid_iff_exists_append.2 ⟨_, _, htext, String.Pos.Raw.ext ?_⟩
  change offsetOf text rest = (String.ofList front).utf8ByteSize
  rw [offsetOf, hsize, Nat.add_sub_cancel, utf8ByteSize_ofList]

/-! ### Reading never stalls -/

theorem shorter_of_expression? {text left : String} {s : Shape}
    (h : expression? text = some (s, left)) : Shorter left.toList text.toList := by
  rw [expression?] at h
  split at h
  next s' rest hread =>
    obtain ⟨rfl, rfl⟩ := Prod.mk.inj (Option.some.inj h)
    rw [String.toList_ofList]
    exact shorter_of_multi (advance_run _) hread
  next => cases h

/-- Every text is read without running out of fuel: what the rules do with a text depends on what they
do where the cursor gets and has taken something, and on nothing else. Wherever the cursor gets, it
stands between two characters of the text. A base that is read has taken a character, and so has every
round of the loops for arguments, entries and alternatives that is not the last; so no check of that
ever fails. What is left of an expression that is read is shorter than the text. -/
theorem reading_moves_on (text : String) :
    readExpression text.toList = reader .multi text.toList ∧
    (∀ (rules : Rules) (rule : Rule) (cs : List Char),
      (∀ rule' cs', Visits reader cs cs' → cs'.length < cs.length →
        rules rule' cs' = reader rule' cs') → body rules rule cs = reader rule cs) ∧
    (∀ cs, Visits reader text.toList cs →
      (String.Pos.Raw.mk (offsetOf text cs)).IsValid text ∧ offsetOf text cs ≤ text.utf8ByteSize) ∧
    (∀ cs s rest, base reader cs = (some s, rest) → rest <:+ cs ∧ rest.length < cs.length) ∧
    (∀ cs s rest after, reader .multi cs = (some s, rest) → punctuation? ',' rest = some after →
      after.length < cs.length) ∧
    (∀ cs key value s rest after, key? cs = some (key, value) →
      reader .multi value = (some s, rest) → punctuation? ',' rest = some after →
        after.length < cs.length) ∧
    (∀ cs s rest after, punctuation? '|' cs = some rest → single reader rest = (some s, after) →
      after.length < cs.length) ∧
    ∀ s left, expression? text = some (s, left) → ∃ taken, taken ≠ "" ∧ text = taken ++ left := by
  refine ⟨rfl, ?_, ?_, ?_, ?_, ?_, ?_, ?_⟩
  · intro rules rule cs h
    exact body_eq_reader (fun rule' cs' hcs' hlt => (h rule' cs' hcs' hlt).symm) rule
  · intro cs hcs
    exact ⟨offsetOf_isValid (hcs.suffix advance_reader), Nat.sub_le _ _⟩
  · intro cs s rest h
    have hrest := shorter_of_base advance_reader h
    exact ⟨hrest.suffix, hrest.length_lt⟩
  · intro cs s rest after hmulti hcomma
    exact ((shorter_of_punctuation? hcomma).of_suffix (suffix_of_rules advance_reader hmulti)).length_lt
  · intro cs key value s rest after hkey hmulti hcomma
    have hafter := (shorter_of_punctuation? hcomma).of_suffix (suffix_of_rules advance_reader hmulti)
    exact (hafter.of_suffix (shorter_of_key? hkey).suffix).length_lt
  · intro cs s rest after hbar hsingle
    exact ((shorter_of_single advance_reader hsingle).of_suffix
      (shorter_of_punctuation? hbar).suffix).length_lt
  · intro s left h
    obtain ⟨⟨front, hfront⟩, hlt⟩ := shorter_of_expression? h
    refine ⟨String.ofList front, ?_, ?_⟩
    · rintro hnil
      have : front = [] := by simpa using congrArg String.toList hnil
      simp [← hfront, this] at hlt
    · rw [← String.ofList_toList (s := text), ← hfront, String.ofList_append, String.ofList_toList]

end ArrayShapes.Doc.Expression
