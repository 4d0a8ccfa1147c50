import ArrayShapes.Proofs.Doc.Spelling

/-!
How the rules move on in a text, whether they succeed or not. What is left over is always the end of
the text, and braces are only passed in pairs.
-/

namespace ArrayShapes.Doc.Expression

open Text

/-- Characters other than quotes and braces. -/
def notQuoteOrBrace (c : Char) : Bool := !isQuote c && c != '{' && c != '}'

/-- The end of a record: its closing brace, or whatever comes after the text up to that brace. -/
inductive Closing : List Char → List Char → Prop where
  | brace {cs rest : List Char} (hcs : dropWhite cs = '}' :: rest) : Closing cs rest
  | skipped (cs : List Char) : Closing cs (skipClosed 0 none false cs).2

/-- The ways to move on in a text: over single characters, comments, quoted strings and records. -/
inductive Moves : List Char → List Char → Prop where
  | refl (cs : List Char) : Moves cs cs
  | char {c : Char} {cs rest : List Char} (hc : notQuoteOrBrace c) (h : Moves cs rest) :
      Moves (c :: cs) rest
  | comment {line cs rest : List Char} (hline : '\n' ∉ line) (h : Moves cs rest) :
      Moves ('/' :: '/' :: (line ++ '\n' :: cs)) rest
  | quoted {quote : Char} {cs content after rest : List Char} (hquote : isQuote quote)
      (htail : quotedTail? quote cs = some (content, after)) (h : Moves after rest) :
      Moves (quote :: cs) rest
  | unclosed {quote : Char} {cs : List Char} (hquote : isQuote quote)
      (htail : quotedTail? quote cs = none) : Moves (quote :: cs) []
  | record {cs inner after rest : List Char} (hinner : Moves cs inner)
      (hclose : Closing inner after) (h : Moves after rest) : Moves ('{' :: cs) rest

theorem Moves.trans {cs inner rest : List Char} (h : Moves cs inner) (h' : Moves inner rest) :
    Moves cs rest := by
  induction h with
  | refl => exact h'
  | char hc _ ih => exact (ih h').char hc
  | comment hline _ ih => exact (ih h').comment hline
  | quoted hquote htail _ ih => exact (ih h').quoted hquote htail
  | unclosed hquote htail =>
      cases h'
      exact .unclosed hquote htail
  | record hinner hclose _ _ ih => exact .record hinner hclose (ih h')

/-! ### Tokens -/

theorem notQuoteOrBrace_of {p : Char → Bool} (hp : ['\'', '"', '{', '}'].all (!p ·)) {c : Char}
    (hc : p c) : notQuoteOrBrace c := by
  have hmem : c ∉ ['\'', '"', '{', '}'] := by
    intro hmem
    have := List.all_eq_true.1 hp c hmem
    simp [hc] at this
  simpa [notQuoteOrBrace, isQuote, and_assoc] using hmem

theorem moves_dropWhile {p : Char → Bool} (hp : ∀ c, p c → notQuoteOrBrace c) (cs : List Char) :
    Moves cs (cs.dropWhile p) := by
  induction cs with
  | nil => exact .refl []
  | cons c cs ih =>
      rw [List.dropWhile_cons]
      split
      next hc => exact ih.char (hp c hc)
      next => exact .refl _

theorem moves_dropWhite (cs : List Char) : Moves cs (dropWhite cs) :=
  moves_dropWhile (fun _ => notQuoteOrBrace_of (by decide)) cs

theorem moves_skipTrivia (cs : List Char) : Moves cs (skipTrivia cs) := by
  fun_induction skipTrivia cs with
  | case1 cs rest hdrop hline ih =>
      obtain ⟨line, after, rfl, hbefore⟩ :=
        List.eq_append_cons_of_mem (by simpa using hline : '\n' ∈ rest)
      have hafter : ((line ++ '\n' :: after).dropWhile (· != '\n')).drop 1 = after := by
        rw [List.dropWhile_append_of_pos (by grind), List.dropWhile_cons_of_neg (by simp)]
        rfl
      rw [hafter] at ih ⊢
      have hmoves := moves_dropWhite cs
      rw [hdrop] at hmoves
      exact hmoves.trans (ih.comment hbefore)
  | case2 cs rest hdrop _ =>
      rw [← hdrop]
      exact moves_dropWhite cs
  | case3 cs _ => exact moves_dropWhite cs

theorem exists_of_punctuation? {c : Char} {cs rest : List Char}
    (h : punctuation? c cs = some rest) :
    ∃ after, dropWhite cs = c :: after ∧ rest = dropWhite after := by
  rw [punctuation?] at h
  split at h
  next d after hdrop =>
    split at h
    next heq =>
      cases h
      exact ⟨after, by rw [hdrop, beq_iff_eq.1 heq], rfl⟩
    next => simp at h
  next => simp at h

theorem moves_punctuation {c : Char} (hc : notQuoteOrBrace c) {cs rest : List Char}
    (h : punctuation? c cs = some rest) : Moves cs rest := by
  obtain ⟨after, hdrop, rfl⟩ := exists_of_punctuation? h
  have hmoves := moves_dropWhite cs
  rw [hdrop] at hmoves
  exact hmoves.trans ((moves_dropWhite after).char hc)

theorem moves_nameTail (cs : List Char) : Moves cs (nameTail cs).2 := by
  fun_induction nameTail cs with
  | case1 => exact .refl []
  | case2 c cs hc name rest heq ih =>
      rw [heq] at ih
      have hplain : notQuoteOrBrace c := by
        simp only [Bool.or_eq_true, Bool.and_eq_true, beq_iff_eq] at hc
        rcases hc with hc | ⟨rfl, -⟩
        · exact notQuoteOrBrace_of (p := isNameChar) (by decide) hc
        · rfl
      exact ih.char hplain
  | case3 c cs _ => exact .refl _

theorem moves_name {cs rest : List Char} {name : String} (h : name? cs = some (name, rest)) :
    Moves cs rest := by
  cases cs with
  | nil => simp [name?] at h
  | cons c cs =>
      rw [name?] at h
      split at h
      next hc =>
        have hmoves := moves_nameTail cs
        simp only [Option.some.injEq, Prod.mk.injEq] at h
        rw [h.2] at hmoves
        exact hmoves.char (notQuoteOrBrace_of (p := isNameStart) (by decide) hc)
      next => simp at h

theorem moves_keyText {cs content rest : List Char} (h : keyText? cs = some (content, rest)) :
    Moves cs rest := by
  cases cs with
  | nil => simp [keyText?] at h
  | cons c cs =>
      rw [keyText?] at h
      split at h
      next hc => exact .quoted hc h (.refl rest)
      next =>
        split at h
        next hc =>
          obtain ⟨-, rfl⟩ : _ ∧ (c :: cs).dropWhile isKeyChar = rest := by simpa using h
          exact moves_dropWhile (fun _ => notQuoteOrBrace_of (by decide)) _
        next => simp at h

theorem moves_key {cs rest : List Char} {key : String} (h : key? cs = some (key, rest)) :
    Moves cs rest := by
  simp only [key?, Option.bind_eq_bind, Option.bind_eq_some_iff, Option.pure_def, Option.some.injEq,
    Prod.mk.injEq] at h
  obtain ⟨⟨content, after⟩, htext, colon, hcolon, -, rfl⟩ := h
  have hmark := (moves_keyText htext).trans (moves_dropWhite after)
  refine (moves_skipTrivia cs).trans (.trans ?_ (moves_punctuation (c := ':') rfl hcolon))
  split
  next heq =>
    rw [heq] at hmark
    exact hmark.trans (.char rfl (.refl _))
  next => exact hmark

theorem moves_brackets (s : Shape) (cs : List Char) : Moves cs (brackets s cs).2 := by
  fun_induction brackets s cs with
  | case1 _ _ ih => exact (ih.char rfl).char rfl
  | case2 _ cs _ => exact .refl cs

theorem moves_suffix (s : Shape) (cs : List Char) : Moves cs (suffix s cs).2 := by
  have hdrop := moves_dropWhite cs
  rw [suffix]
  split
  next rest heq =>
    rw [heq] at hdrop
    have hbrackets := (moves_brackets (.list s) rest).trans (moves_dropWhite _)
    exact hdrop.trans ((hbrackets.char rfl).char rfl)
  next => exact .refl cs

/-! ### Rules -/

/-- What the rules leave over can be moved on to. -/
def Advance (rules : Rules) : Prop :=
  ∀ ⦃rule cs s rest⦄, rules rule cs = (s, rest) → Moves cs rest

/-- What follows the entries of a record and the comma after the last of them. -/
def afterEntries (rules : Rules) (cs : List Char) : List Char :=
  (punctuation? ',' (entries rules cs).2).getD (entries rules cs).2

theorem record_eq (rules : Rules) (cs : List Char) :
    record rules cs =
      match punctuation? '}' (afterEntries rules cs) with
      | some rest => (.ofEntries (entries rules cs).1 none, rest)
      | none => (.ofEntries (entries rules cs).1
          (some (String.ofList (skipClosed 0 none false (afterEntries rules cs)).1)),
          (skipClosed 0 none false (afterEntries rules cs)).2) := rfl

/-- A record leaves what comes after its end. -/
theorem closing_record (rules : Rules) (cs : List Char) :
    ∃ after, Closing (afterEntries rules cs) after ∧
      ((record rules cs).2 = after ∨ (record rules cs).2 = dropWhite after) := by
  rw [record_eq]
  cases hclose : punctuation? '}' (afterEntries rules cs) with
  | none => exact ⟨_, .skipped _, .inl rfl⟩
  | some rest =>
      obtain ⟨after, hdrop, rfl⟩ := exists_of_punctuation? hclose
      exact ⟨after, .brace hdrop, .inr rfl⟩

section Rules

variable {rules : Rules} (hrules : Advance rules)
include hrules

theorem moves_arguments (cs : List Char) : Moves cs (arguments rules cs).2 := by
  fun_induction arguments rules cs with
  | case1 _ _ hmulti => exact hrules hmulti
  | case2 _ _ _ hmulti _ => exact hrules hmulti
  | case3 cs _ _ hmulti _ hcomma _ _ _ heq ih =>
      rw [heq] at ih
      exact ((hrules hmulti).trans (moves_punctuation rfl hcomma)).trans ih
  | case4 _ _ _ hmulti _ hcomma _ => exact (hrules hmulti).trans (moves_punctuation rfl hcomma)

theorem moves_entries (cs : List Char) : Moves cs (entries rules cs).2 := by
  fun_induction entries rules cs with
  | case1 cs _ => exact .refl cs
  | case2 _ _ _ hkey _ hmulti => exact (moves_key hkey).trans (hrules hmulti)
  | case3 _ _ _ hkey _ _ hmulti _ => exact (moves_key hkey).trans (hrules hmulti)
  | case4 _ _ _ hkey _ _ hmulti _ hcomma _ _ _ heq ih =>
      rw [heq] at ih
      have hvalue := (moves_key hkey).trans (hrules hmulti)
      exact (hvalue.trans (moves_punctuation rfl hcomma)).trans ih
  | case5 _ _ _ hkey _ _ hmulti _ hcomma _ =>
      have hvalue := (moves_key hkey).trans (hrules hmulti)
      exact hvalue.trans (moves_punctuation rfl hcomma)

theorem moves_afterEntries (cs : List Char) : Moves cs (afterEntries rules cs) := by
  have hentries := moves_entries hrules cs
  rw [afterEntries]
  cases hcomma : punctuation? ',' (entries rules cs).2 with
  | none => exact hentries
  | some rest => exact hentries.trans (moves_punctuation rfl hcomma)

theorem moves_named (name : String) (cs : List Char) : Moves cs (named rules name cs).2 := by
  rw [named]
  split
  next rest hopen =>
    have hmoves := (moves_punctuation rfl hopen).trans (moves_arguments hrules rest)
    split
    next heq => simpa [heq] using hmoves
    next ss after heq =>
      rw [heq] at hmoves
      split
      next hclose => exact hmoves.trans (moves_punctuation rfl hclose)
      next => exact hmoves
  next =>
    have hmoves := moves_dropWhite cs
    split
    next rest heq =>
      rw [heq] at hmoves
      split
      next =>
        obtain ⟨after, hclose, hrest⟩ := closing_record rules (dropWhite rest)
        have hinner := (moves_dropWhite rest).trans (moves_afterEntries hrules (dropWhite rest))
        refine hmoves.trans (.record hinner hclose ?_)
        rcases hrest with hrest | hrest
        · exact hrest ▸ .refl after
        · exact hrest ▸ moves_dropWhite after
      next => exact hmoves
    next => exact hmoves

theorem moves_base (cs : List Char) : Moves cs (base rules cs).2 := by
  cases cs with
  | nil => exact .refl []
  | cons c cs =>
      rw [base]
      split
      next hc =>
        obtain rfl : c = '?' := by simpa using hc
        exact (hrules rfl).char rfl
      next =>
        split
        next hquote =>
          split
          next htail => exact .quoted hquote htail (moves_dropWhite _)
          next htail => exact .unclosed hquote htail
        next =>
          split
          next hname => exact (moves_name hname).trans (moves_named hrules _ _)
          next => exact .refl _

theorem moves_single (cs : List Char) : Moves cs (single rules cs).2 := by
  have hbase := (moves_skipTrivia cs).trans (moves_base hrules (skipTrivia cs))
  simp only [single]
  split
  next heq => simpa [heq] using hbase
  next s rest heq =>
    rw [heq] at hbase
    split
    next => exact hbase.trans (moves_suffix s rest)
    next => exact hbase

theorem moves_of_single {cs rest : List Char} {s : Option Shape}
    (h : single rules cs = (s, rest)) : Moves cs rest := by
  simpa [h] using moves_single hrules cs

theorem moves_others (cs : List Char) : Moves cs (others rules cs).2 := by
  fun_induction others rules cs with
  | case1 cs _ => exact .refl cs
  | case2 _ _ hbar _ hsingle =>
      exact (moves_punctuation rfl hbar).trans (moves_of_single hrules hsingle)
  | case3 _ _ hbar _ _ hsingle _ _ _ heq ih =>
      rw [heq] at ih
      exact ((moves_punctuation rfl hbar).trans (moves_of_single hrules hsingle)).trans ih
  | case4 _ _ hbar _ _ hsingle _ =>
      exact (moves_punctuation rfl hbar).trans (moves_of_single hrules hsingle)

theorem moves_multi (cs : List Char) : Moves cs (multi rules cs).2 := by
  simp only [multi]
  split
  next hsingle => exact moves_of_single hrules hsingle
  next hsingle => exact (moves_of_single hrules hsingle).trans (moves_others hrules _)

end Rules

theorem advance_run (fuel : Nat) : Advance (run fuel) := by
  induction fuel with
  | zero =>
      intro rule cs s rest h
      cases h
      exact .refl cs
  | succ fuel ih =>
      intro rule cs s rest h
      cases rule with
      | single => exact moves_of_single ih h
      | multi =>
          have hmoves := moves_multi ih cs
          rwa [show multi (run fuel) cs = (s, rest) from h] at hmoves

/-! ### What is left over -/

theorem exists_written_of_quotedTail? {quote : Char} {cs content rest : List Char}
    (h : quotedTail? quote cs = some (content, rest)) :
    ∃ written, cs = written ++ quote :: rest ∧ Written quote written content := by
  fun_induction quotedTail? quote cs generalizing content with
  | case1 => simp at h
  | case2 => simp at h
  | case3 c cs ih =>
      obtain ⟨⟨content, after⟩, htail, heq⟩ := Option.map_eq_some_iff.1 h
      cases heq
      obtain ⟨written, rfl, hwritten⟩ := ih htail
      exact ⟨'\\' :: c :: written, rfl, hwritten.escaped⟩
  | case4 c cs _ _ hc =>
      cases h
      exact ⟨[], by rw [beq_iff_eq.1 hc]; rfl, .nil⟩
  | case5 c cs _ hescape hc ih =>
      obtain ⟨⟨content, after⟩, htail, heq⟩ := Option.map_eq_some_iff.1 h
      cases heq
      obtain ⟨written, rfl, hwritten⟩ := ih htail
      -- a backslash would have taken the next character with it
      have hslash : c ≠ '\\' := by
        rintro rfl
        cases written <;> exact hescape _ _ rfl rfl
      exact ⟨c :: written, rfl, hwritten.plain (by simpa using hc) hslash⟩

theorem quotedTail?_suffix {quote : Char} {cs content rest : List Char}
    (h : quotedTail? quote cs = some (content, rest)) : rest <:+ cs := by
  obtain ⟨written, rfl, -⟩ := exists_written_of_quotedTail? h
  exact ⟨written ++ [quote], by simp⟩

/-- Skipping stops at a brace or goes on behind the next character. -/
theorem skipClosed_cons (depth : Nat) (quote : Option Char) (escaped : Bool) (c : Char)
    (cs : List Char) :
    c = '}' ∧ skipClosed depth quote escaped (c :: cs) = ([], cs) ∨
      ∃ depth' quote' escaped', skipClosed depth quote escaped (c :: cs) =
        (c :: (skipClosed depth' quote' escaped' cs).1,
          (skipClosed depth' quote' escaped' cs).2) := by
  rw [skipClosed.eq_def]
  dsimp only
  split
  next =>
    split
    next => exact .inr ⟨_, _, _, rfl⟩
    next =>
      split
      next => exact .inr ⟨_, _, _, rfl⟩
      next => exact .inr ⟨_, _, _, rfl⟩
  next =>
    split
    next hc =>
      -- only the brace of the record itself is not kept
      cases depth with
      | zero => exact .inl ⟨by simpa using hc, rfl⟩
      | succ depth => exact .inr ⟨_, _, _, rfl⟩
    next =>
      split
      next => exact .inr ⟨_, _, _, rfl⟩
      next => exact .inr ⟨_, _, _, rfl⟩

/-- What is skipped and what is left over make up the text, but for the brace between them. -/
theorem skipClosed_eq (depth : Nat) (quote : Option Char) (escaped : Bool) (cs : List Char) :
    cs = (skipClosed depth quote escaped cs).1 ∧ (skipClosed depth quote escaped cs).2 = [] ∨
      cs = (skipClosed depth quote escaped cs).1 ++
        '}' :: (skipClosed depth quote escaped cs).2 := by
  induction cs generalizing depth quote escaped with
  | nil => exact .inl ⟨rfl, rfl⟩
  | cons c cs ih =>
      obtain ⟨rfl, heq⟩ | ⟨depth', quote', escaped', heq⟩ :=
        skipClosed_cons depth quote escaped c cs
      · exact .inr (by rw [heq]; rfl)
      · rw [heq]
        exact (ih depth' quote' escaped').imp (fun h => ⟨congrArg _ h.1, h.2⟩) (congrArg _)

theorem Closing.isSuffix {cs rest : List Char} (h : Closing cs rest) : rest <:+ cs := by
  cases h with
  | brace hcs =>
      have hdrop : dropWhite cs <:+ cs := List.dropWhile_suffix _
      rw [hcs] at hdrop
      exact (List.suffix_cons _ _).trans hdrop
  | skipped =>
      rcases skipClosed_eq 0 none false cs with ⟨-, hnil⟩ | heq
      · exact hnil ▸ List.nil_suffix
      · exact ⟨(skipClosed 0 none false cs).1 ++ ['}'], by rw [List.append_assoc]; exact heq.symm⟩

/-- What is left over is the end of the text. -/
theorem Moves.isSuffix {cs rest : List Char} (h : Moves cs rest) : rest <:+ cs := by
  induction h with
  | refl => exact List.suffix_rfl
  | char _ _ ih => exact ih.trans (List.suffix_cons _ _)
  | @comment line cs rest _ _ ih => exact ih.trans ⟨'/' :: '/' :: (line ++ ['\n']), by simp⟩
  | quoted _ htail _ ih => exact (ih.trans (quotedTail?_suffix htail)).trans (List.suffix_cons _ _)
  | unclosed => exact List.nil_suffix
  | record _ hclose _ ihinner ih =>
      exact ((ih.trans hclose.isSuffix).trans ihinner).trans (List.suffix_cons _ _)

end ArrayShapes.Doc.Expression
