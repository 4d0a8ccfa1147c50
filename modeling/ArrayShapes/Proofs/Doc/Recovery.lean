import ArrayShapes.Doc.Signature
import ArrayShapes.Proofs.Doc.Advance
import ArrayShapes.Proofs.Doc.Reading
import ArrayShapes.Proofs.Shape.Keys

/-!
Records that cannot be read to their end. The rest of such a record is skipped up to its own closing
brace, so that nothing behind it is lost, and is kept as it stands unless the entries before it make
a tuple.
-/

namespace ArrayShapes

namespace Doc.Expression

open Text

/-! ### What is skipped -/

/-- The brace of a record does not follow its entries, and text up to the brace is skipped. -/
def Skips (rules : Rules) (cs skipped : List Char) : Prop :=
  punctuation? '}' (afterEntries rules cs) = none ∧
    (skipClosed 0 none false (afterEntries rules cs)).1 = skipped

theorem Skips.record_eq {rules : Rules} {cs skipped : List Char} (h : Skips rules cs skipped) :
    record rules cs = (.ofEntries (entries rules cs).1 (some (String.ofList skipped)),
      (skipClosed 0 none false (afterEntries rules cs)).2) := by
  rw [Expression.record_eq, h.1, h.2]

/-- What is skipped is a part of the text, in front of the brace that closes the record. -/
theorem Skips.verbatim {fuel : Nat} {cs skipped : List Char} (h : Skips (run fuel) cs skipped) :
    ∃ before after, cs = before ++ (skipped ++ after) ∧
      (after = [] ∧ (record (run fuel) cs).2 = [] ∨ after = '}' :: (record (run fuel) cs).2) := by
  obtain ⟨before, hbefore⟩ := (moves_afterEntries (advance_run fuel) cs).isSuffix
  have hskip := skipClosed_eq 0 none false (afterEntries (run fuel) cs)
  rw [h.2] at hskip
  rw [h.record_eq]
  rcases hskip with ⟨heq, hnil⟩ | heq
  · exact ⟨before, [], by rw [List.append_nil, ← heq, hbefore], .inl ⟨rfl, hnil⟩⟩
  · exact ⟨before, _, by rw [← heq, hbefore], .inr rfl⟩

/-- Entries, and what cannot be the next of them up to the brace. -/
theorem skips_layout {ts : List Lexeme} {es : List (Shape × Shape)} (hes : Derives ts (.entries es))
    {cs r : List Char} (hcs : Layout ts cs) (hr : (Part.entries es).Ends r)
    (hbrace : punctuation? '}' r = none) :
    Skips (run (cs.length + 1)) (dropWhite (cs ++ r)) (skipClosed 0 none false (dropWhite r)).1 ∧
      (entries (run (cs.length + 1)) (dropWhite (cs ++ r))).1 = es := by
  have hread : entries (run (cs.length + 1)) (dropWhite (cs ++ r)) = (es, dropWhite r) :=
    hes.isReadIn hcs cs.length r le_rfl hr
  have hafter : afterEntries (run (cs.length + 1)) (dropWhite (cs ++ r)) = dropWhite r := by
    rw [afterEntries, hread, punctuation?_dropWhite, hr.1.punctuation?_eq_none (by simp)]
    rfl
  exact ⟨⟨by rw [hafter, punctuation?_dropWhite, hbrace], by rw [hafter]⟩, by rw [hread]⟩

/-- Skipped text stands in the source, and the record has it unless its entries make a tuple. Then
the record is the same as if it had been read to its end. -/
theorem record_unparsed_iff {fuel : Nat} {cs skipped : List Char}
    (h : Skips (run fuel) cs skipped) :
    (∃ before after, cs = before ++ (skipped ++ after) ∧
      (after = [] ∧ (record (run fuel) cs).2 = [] ∨ after = '}' :: (record (run fuel) cs).2)) ∧
    ((record (run fuel) cs).1 =
        .record (entries (run fuel) cs).1 (some (String.ofList skipped)) ↔
      ¬ Shape.Indexed (entries (run fuel) cs).1) ∧
    ((record (run fuel) cs).1 = .ofEntries (entries (run fuel) cs).1 none ↔
      Shape.Indexed (entries (run fuel) cs).1) := by
  refine ⟨h.verbatim, ?_⟩
  rw [h.record_eq]
  by_cases hes : Shape.Indexed (entries (run fuel) cs).1
  · simp [hes, hes.ofEntries_eq]
  · simp [hes, Shape.ofEntries_of_not_indexed hes]

/-- A callable, which has no notation of its own, as the second element of a tuple. -/
theorem record_unparsed_callable :
    Skips (run 20) "0: int, 1: callable(int): void\x7d $x".toList "(int): void".toList ∧
    (record (run 20) "0: int, 1: callable(int): void\x7d $x".toList).1 =
      .tuple [.plain "int", .plain "callable"] := by
  have hfirst : IsKey (.word ['0']) "0" := .word (by decide) (List.all_eq_true.mp (by decide))
  have hsecond : IsKey (.word ['1']) "1" := .word (by decide) (List.all_eq_true.mp (by decide))
  have hblank : Trivia [' '] := .white rfl .nil
  have hint : Derives [.word "int".toList] (.base (.plain "int")) := .name (by decide)
  have hcallable : Derives [.word "callable".toList] (.base (.plain "callable")) :=
    .name (by decide)
  have hentries := Derives.entries hfirst (.inl rfl) ((hint.single 0).multi .last)
    (.entry hsecond (.inl rfl) ((hcallable.single 0).multi .last))
  have hlayout : Layout _ "0: int, 1: callable".toList := @layout_flatMap
    [([], .word ['0']), ([], .sign ':'), ([' '], .word "int".toList), ([], .sign ','),
      ([' '], .word ['1']), ([], .sign ':'), ([' '], .word "callable".toList)]
    (by simp [Lexeme.Admits, Trivia.nil, hblank])
  have hends : Part.Ends (.entries [(.str "0", .plain "int"), (.str "1", .plain "callable")])
      "(int): void\x7d $x".toList :=
    ⟨follows_of_dropWhite rfl rfl (by decide), key?_eq_none rfl (by decide) rfl rfl _⟩
  obtain ⟨hskips, hentries⟩ := skips_layout hentries hlayout hends rfl
  have hrecord := (record_unparsed_iff hskips).2.2
  rw [hentries] at hrecord
  exact ⟨hskips, hrecord.2 ⟨by simp, rfl⟩⟩

/-! ### The end of a record -/

/-- Text at the top level of a record and what follows the brace of the record. There are no
comments. -/
inductive Closes : List Char → List Char → Prop where
  | brace (rest : List Char) : Closes ('}' :: rest) rest
  | char {c : Char} {cs rest : List Char} (hc : notQuoteOrBrace c)
      (hslash : c = '/' → cs.head? ≠ some '/')
      (h : Closes cs rest) : Closes (c :: cs) rest
  | quoted {quote : Char} {cs content after rest : List Char} (hquote : isQuote quote)
      (htail : quotedTail? quote cs = some (content, after)) (h : Closes after rest) :
      Closes (quote :: cs) rest
  | nested {cs after rest : List Char} (hinner : Closes cs after) (h : Closes after rest) :
      Closes ('{' :: cs) rest

theorem isQuote_of_notQuoteOrBrace {c : Char} (hc : notQuoteOrBrace c) : isQuote c = false := by
  simp_all [notQuoteOrBrace]

theorem Closes.of_plain {c : Char} (hc : notQuoteOrBrace c) {cs rest : List Char}
    (h : Closes (c :: cs) rest) : Closes cs rest := by
  cases h with
  | brace => exact absurd hc (by decide)
  | char _ _ h => exact h
  | quoted hquote => simp [isQuote_of_notQuoteOrBrace hc] at hquote
  | nested => exact absurd hc (by decide)

theorem Closes.of_quote {quote : Char} (hquote : isQuote quote) {cs rest : List Char}
    (h : Closes (quote :: cs) rest) :
    ∃ content after, quotedTail? quote cs = some (content, after) ∧ Closes after rest := by
  cases h with
  | brace => exact absurd hquote (by decide)
  | char hc => simp [isQuote_of_notQuoteOrBrace hc] at hquote
  | quoted _ htail h => exact ⟨_, _, htail, h⟩
  | nested => exact absurd hquote (by decide)

theorem Closes.of_open {cs rest : List Char} (h : Closes ('{' :: cs) rest) :
    ∃ after, Closes cs after ∧ Closes after rest := by
  cases h with
  | char hc => exact absurd hc (by decide)
  | quoted hquote => exact absurd hquote (by decide)
  | nested hinner h => exact ⟨_, hinner, h⟩

theorem Closes.of_brace {cs rest : List Char} (h : Closes ('}' :: cs) rest) : cs = rest := by
  cases h with
  | brace => rfl
  | char hc => exact absurd hc (by decide)
  | quoted hquote => exact absurd hquote (by decide)

theorem skipClosed_plain {c : Char} (hc : notQuoteOrBrace c) (depth : Nat) (cs : List Char) :
    (skipClosed depth none false (c :: cs)).2 = (skipClosed depth none false cs).2 := by
  simp only [notQuoteOrBrace, Bool.and_eq_true, Bool.not_eq_true', bne_iff_ne] at hc
  simp [skipClosed, hc]

theorem skipClosed_quote {quote : Char} (hquote : isQuote quote) (depth : Nat) (cs : List Char) :
    (skipClosed depth none false (quote :: cs)).2 = (skipClosed depth (some quote) false cs).2 := by
  simp [skipClosed, ne_of_isQuote hquote (c := '{') rfl, ne_of_isQuote hquote (c := '}') rfl, hquote]

theorem Written.skipClosed_eq {quote : Char} (hquote : isQuote quote)
    {written content : List Char} (h : Written quote written content) (depth : Nat)
    (cs : List Char) :
    (skipClosed depth (some quote) false (written ++ quote :: cs)).2 =
      (skipClosed depth none false cs).2 := by
  have hescape : quote ≠ '\\' := ne_of_isQuote hquote rfl
  induction h with
  | nil => simp [skipClosed, hescape]
  | plain hne hslash _ ih => simp [skipClosed, hne, hslash, ih]
  | escaped _ ih => simp [skipClosed, ih]

theorem skipClosed_quoted {quote : Char} (hquote : isQuote quote) {cs content after : List Char}
    (htail : quotedTail? quote cs = some (content, after)) (depth : Nat) :
    (skipClosed depth none false (quote :: cs)).2 = (skipClosed depth none false after).2 := by
  obtain ⟨written, rfl, hwritten⟩ := exists_written_of_quotedTail? htail
  rw [skipClosed_quote hquote, hwritten.skipClosed_eq hquote]

/-- Skipping ends at the brace that closes the record, also from inside other records. -/
theorem Closes.skipClosed_eq {cs rest : List Char} (h : Closes cs rest) :
    (skipClosed 0 none false cs).2 = rest ∧
      ∀ depth, (skipClosed (depth + 1) none false cs).2 = (skipClosed depth none false rest).2 := by
  induction h with
  | brace rest => exact ⟨by simp [skipClosed], by simp [skipClosed]⟩
  | char hc _ _ ih => simpa only [skipClosed_plain hc] using ih
  | quoted hquote htail _ ih =>
      simpa only [skipClosed_quoted hquote htail] using ih
  | @nested cs after rest _ _ ihinner ih =>
      -- one brace deeper, the nested record is skipped first
      have hopen (depth : Nat) : (skipClosed depth none false ('{' :: cs)).2 =
          (skipClosed (depth + 1) none false cs).2 := by simp [skipClosed]
      simpa only [hopen, ihinner.2] using ih

theorem closes_dropWhite {cs rest : List Char} (h : Closes cs rest) :
    Closes (dropWhite cs) rest := by
  induction cs with
  | nil => exact h
  | cons c cs ih =>
      rw [dropWhite, List.dropWhile_cons]
      split
      next hc => exact ih (h.of_plain (notQuoteOrBrace_of (p := isWhite) (by decide) hc))
      next => exact h

theorem Closes.of_closing {cs after rest : List Char} (hclosing : Closing cs after)
    (h : Closes cs rest) : after = rest := by
  cases hclosing with
  | brace hcs =>
      have hdrop := closes_dropWhite h
      rw [hcs] at hdrop
      exact hdrop.of_brace
  | skipped => exact h.skipClosed_eq.1

/-- Moving on at the top level of a record stays there. -/
theorem Closes.of_moves {cs cs' rest : List Char} (hmoves : Moves cs cs') (h : Closes cs rest) :
    Closes cs' rest := by
  induction hmoves generalizing rest with
  | refl => exact h
  | char hc _ ih => exact ih (h.of_plain hc)
  | comment =>
      cases h with
      | char _ hslash => exact absurd rfl (hslash rfl)
      | quoted hquote => exact absurd hquote (by decide)
  | quoted hquote htail _ ih =>
      obtain ⟨content, after, htail', h⟩ := h.of_quote hquote
      cases htail.symm.trans htail'
      exact ih h
  | unclosed hquote htail =>
      obtain ⟨content, after, htail', -⟩ := h.of_quote hquote
      simp [htail] at htail'
  | record _ hclose _ ihinner ih =>
      -- inside a nested record the argument is the same, with the brace of that record
      obtain ⟨after, hinner, h⟩ := h.of_open
      obtain rfl := (ihinner hinner).of_closing hclose
      exact ih h

/-- Whatever the entries of a record are, a record leaves what follows its brace. -/
theorem Closes.record_left {cs rest : List Char} (h : Closes cs rest) (fuel : Nat) :
    (record (run fuel) cs).2 = rest ∨ (record (run fuel) cs).2 = dropWhite rest := by
  obtain ⟨after, hclosing, hleft⟩ := closing_record (run fuel) cs
  obtain rfl := (h.of_moves (moves_afterEntries (advance_run fuel) cs)).of_closing hclosing
  exact hleft

theorem Closes.length_lt {cs rest : List Char} (h : Closes cs rest) : rest.length < cs.length := by
  induction h with
  | brace => simp
  | char _ _ _ ih => exact ih.trans (Nat.lt_succ_self _)
  | quoted _ htail _ ih =>
      have hlength := (quotedTail?_suffix htail).length_le
      simp only [List.length_cons]
      omega
  | nested _ _ ihinner ih => exact (ih.trans ihinner).trans (Nat.lt_succ_self _)

theorem base_array (rules : Rules) (cs : List Char) :
    base rules ("array\x7b".toList ++ cs) =
      (some (record rules (dropWhite cs)).1, (record rules (dropWhite cs)).2) := by
  have hopen : dropWhite ('{' :: cs) = '{' :: cs := dropWhite_cons rfl cs
  have hfollows : Follows ['<'] ('{' :: cs) := follows_of_dropWhite hopen rfl (by simp)
  have hbase : base rules ("array".toList ++ '{' :: cs) = named rules "array" ('{' :: cs) :=
    base_name (by decide) hfollows.head
  rw [named, hfollows.punctuation?_eq_none (by simp), hopen] at hbase
  simpa using hbase

/-- A base that neither brackets nor a bar follow is the whole expression. -/
theorem multi_of_base {rules : Rules} {cs left : List Char} {s : Shape}
    (hbase : base rules (skipTrivia cs) = (some s, left))
    (hlt : left.length < (skipTrivia cs).length)
    (hleft : ∀ c ∈ (dropWhite left).head?, c ≠ '[' ∧ c ≠ '|') :
    multi rules cs = (some (.oneOf [s]), left) := by
  have hsuffix : suffix s left = (s, left) := suffix_eq (fun c hc => (hleft c hc).1) s
  have hothers : others rules left = ([], left) := by
    rw [others, punctuation?_eq_none fun c hc => (hleft c hc).2]
  simp only [multi, single, hbase, if_pos hlt, hsuffix, hothers]

/-- Whatever the entries of a record are, the expression ends with the record. -/
theorem Closes.readExpression_eq {cs rest : List Char} (h : Closes cs rest)
    (hrest : ∀ c ∈ (dropWhite rest).head?, c ≠ '[' ∧ c ≠ '|') :
    ∃ s left, readExpression ("array\x7b".toList ++ cs) = (some s, left) ∧
      dropWhite left = dropWhite rest := by
  have hstart : skipTrivia ("array\x7b".toList ++ cs) = "array\x7b".toList ++ cs :=
    Opens.skipTrivia_eq ⟨'a', rfl, by decide⟩
  obtain ⟨s, left, hbase, hleft⟩ : ∃ s left,
      base (run ("array\x7b".toList ++ cs).length) ("array\x7b".toList ++ cs) = (some s, left) ∧
        (left = rest ∨ left = dropWhite rest) :=
    ⟨_, _, base_array _ cs, (closes_dropWhite h).record_left _⟩
  have hsame : dropWhite left = dropWhite rest := by
    rcases hleft with rfl | rfl
    · rfl
    · exact dropWhite_dropWhite rest
  have hlength : left.length < ("array\x7b".toList ++ cs).length := by
    have hlt := h.length_lt
    have hle := length_dropWhite_le rest
    rw [List.length_append]
    rcases hleft with rfl | rfl <;> omega
  rw [← hsame] at hrest
  exact ⟨.oneOf [s], left,
    multi_of_base (by rw [hstart, hbase]) (by rwa [hstart]) hrest, hsame⟩

/-! ### Balanced text -/

/-- Text in which braces come in pairs, one inside the other or one after the other, and quoted
strings come to an end. Braces in quoted strings do not count. -/
inductive Balanced : List Char → Prop where
  | nil : Balanced []
  | char {c : Char} {cs : List Char} (hc : notQuoteOrBrace c) (hcs : Balanced cs) : Balanced (c :: cs)
  | quoted {quote : Char} {written content cs : List Char} (hquote : isQuote quote)
      (hwritten : Written quote written content) (hcs : Balanced cs) :
      Balanced (quote :: (written ++ quote :: cs))
  | braces {inner cs : List Char} (hinner : Balanced inner) (hcs : Balanced cs) :
      Balanced ('{' :: (inner ++ '}' :: cs))

theorem Balanced.plain_append {cs rest : List Char} (hcs : ∀ c ∈ cs, notQuoteOrBrace c)
    (hrest : Balanced rest) : Balanced (cs ++ rest) := by
  induction cs with
  | nil => exact hrest
  | cons c cs ih =>
      rw [List.forall_mem_cons] at hcs
      exact .char hcs.1 (ih hcs.2)

/-- Balanced text without comments does not change where a record ends. -/
theorem Balanced.closes_append {body : List Char} (hbody : Balanced body)
    (hslashes : ¬ ['/', '/'] <:+: body) {cs rest : List Char} (hcs : cs.head? ≠ some '/')
    (h : Closes cs rest) : Closes (body ++ cs) rest := by
  induction hbody generalizing cs rest with
  | nil => exact h
  | @char c body hc _ ih =>
      have hbehind : ¬ ['/', '/'] <:+: body := fun hpart =>
        hslashes (hpart.trans (List.suffix_cons c body).isInfix)
      refine .char hc ?_ (ih hbehind hcs h)
      -- the second slash of a comment would be in the body or the first character behind it
      rintro rfl
      cases body with
      | nil => exact hcs
      | cons d body =>
          rintro ⟨⟩
          exact hslashes ⟨[], body, rfl⟩
  | @quoted quote written content body hquote hwritten _ ih =>
      have hbehind : ¬ ['/', '/'] <:+: body := fun hpart =>
        hslashes (hpart.trans ⟨quote :: (written ++ [quote]), [], by simp⟩)
      rw [List.cons_append, List.append_assoc]
      exact .quoted hquote (hwritten.quotedTail?_append hquote (body ++ cs)) (ih hbehind hcs h)
  | @braces inner body _ _ ihinner ih =>
      have hinside : ¬ ['/', '/'] <:+: inner := fun hpart =>
        hslashes (hpart.trans ⟨['{'], '}' :: body, by simp⟩)
      have hbehind : ¬ ['/', '/'] <:+: body := fun hpart =>
        hslashes (hpart.trans ⟨'{' :: (inner ++ ['}']), [], by simp⟩)
      rw [List.cons_append, List.append_assoc]
      exact .nested (ihinner hinside (by simp) (.brace (body ++ cs))) (ih hbehind hcs h)

theorem variableName?_congr {text text' : String}
    (h : dropWhite text.toList = dropWhite text'.toList) :
    Signature.variableName? text = Signature.variableName? text' := by
  simp only [Signature.variableName?, h]

/-- Whatever stands between the braces of a record, the record is read up to its own brace, and
the variable behind it keeps its name. -/
theorem expression?_balanced {body gap name : List Char} (hbody : Balanced body)
    (hslashes : ¬ ['/', '/'] <:+: body) (hgap : ∀ c ∈ gap, isWhite c) :
    ∃ s left,
      expression? (String.ofList ("array\x7b".toList ++ (body ++ '}' :: (gap ++ '$' :: name)))) =
        some (s, left) ∧
      dropWhite left.toList = '$' :: name ∧
      Signature.variableName? left = Signature.variableName? (String.ofList ('$' :: name)) := by
  have hdrop : dropWhite (gap ++ '$' :: name) = '$' :: name := dropWhite_gap hgap rfl name
  have hcloses := hbody.closes_append hslashes (by simp) (.brace (gap ++ '$' :: name))
  obtain ⟨s, left, hread, hleft⟩ := hcloses.readExpression_eq (by simp [hdrop])
  rw [hdrop] at hleft
  refine ⟨s, String.ofList left, by rw [expression?, String.toList_ofList, hread], ?_, ?_⟩
  · rw [String.toList_ofList, hleft]
  · apply variableName?_congr
    rw [String.toList_ofList, String.toList_ofList, hleft]
    exact (dropWhite_cons rfl name).symm

/-- A list of arguments that breaks off at a brace, and braces in strings. -/
def brokenBody : List Char := "a: Foo<\x7b'\\'\x7d': \"\x7b\"\x7d, b".toList

theorem balanced_brokenBody : Balanced brokenBody := by
  have hkey : Written '\'' "\\'\x7d".toList "'\x7d".toList :=
    .escaped (.plain (by decide) (by decide) .nil)
  have hvalue : Written '"' ['{'] ['{'] := .plain (by decide) (by decide) .nil
  have hinner : Balanced "'\\'\x7d': \"\x7b\"".toList :=
    .quoted rfl hkey (.char rfl (.char rfl (.quoted rfl hvalue .nil)))
  have hb : Balanced ", b".toList := .char rfl (.char rfl (.char rfl .nil))
  have hfoo : ∀ c ∈ "a: Foo<".toList, notQuoteOrBrace c := List.all_eq_true.mp (by decide)
  exact Balanced.plain_append hfoo (hinner.braces hb)

theorem expression?_brokenBody :
    ∃ s left,
      expression? "array\x7ba: Foo<\x7b'\\'\x7d': \"\x7b\"\x7d, b\x7d $rows" = some (s, left) ∧
      dropWhite left.toList = "$rows".toList ∧ Signature.variableName? left = some "rows" := by
  have hslash : '/' ∉ brokenBody := by decide
  obtain ⟨s, left, hread, hleft, hname⟩ := @expression?_balanced brokenBody [' '] "rows".toList
    balanced_brokenBody (fun hpart => hslash (hpart.subset (by simp))) (by simp [isWhite])
  exact ⟨s, left, hread, hleft, hname⟩

end Doc.Expression

end ArrayShapes
