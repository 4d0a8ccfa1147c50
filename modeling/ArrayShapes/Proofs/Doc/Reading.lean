import ArrayShapes.Proofs.Doc.Spelling

/-!
Every layout of a derivation is read as what it means.
-/

namespace ArrayShapes.Doc.Expression

open Text

/-! ### What follows a part -/

/-- Text that does not go on the name in front of it and has none of `signs` next. -/
structure Follows (signs r : List Char) : Prop where
  head : ∀ c ∈ r.head?, isNameChar c = false ∧ c ≠ '-'
  next : ∀ c ∈ (dropWhite r).head?, c ∉ signs

/-- Text that cannot go on the expression in front of it. -/
abbrev Ends : List Char → Prop := Follows ['<', '{', '[', '|']

/-- Text that cannot go on the part in front of it. -/
def Part.Ends : Part → List Char → Prop
  | .base _ => Follows ['<', '{']
  | .single _ => Follows ['<', '{', '[']
  | .others _ | .multi _ => Expression.Ends
  | .arguments _ => Follows ['<', '{', '[', '|', ',']
  | .entries _ => fun r => Follows ['<', '{', '[', '|', ','] r ∧ key? (dropWhite r) = none

theorem Follows.mono {signs signs' r : List Char} (hr : Follows signs r) (hsub : signs' ⊆ signs) :
    Follows signs' r :=
  ⟨hr.head, fun c hc hmem => hr.next c hc (hsub hmem)⟩

theorem follows_of_dropWhite {signs r rest : List Char} {c : Char} (hr : dropWhite r = c :: rest)
    (hname : isNameChar c = false) (hc : c ∉ '-' :: signs) : Follows signs r := by
  rw [List.mem_cons, not_or] at hc
  refine ⟨?_, by simpa [hr] using hc.2⟩
  intro d hd
  cases r with
  | nil => simp at hd
  | cons e r =>
      obtain rfl : e = d := by simpa using hd
      cases hwhite : isWhite e with
      | true =>
          -- blanks are no part of names
          constructor
          · by_contra hopen
            have := isWhite_of_isOpening (c := e) (by simp [isOpening, hopen])
            simp_all
          · rintro rfl
            exact absurd hwhite (by decide)
      | false =>
          rw [dropWhite_cons hwhite, List.cons.injEq] at hr
          rw [hr.1]
          exact ⟨hname, hc.1⟩

theorem punctuation?_eq_some {c : Char} {cs rest : List Char} (hcs : dropWhite cs = c :: rest) :
    punctuation? c cs = some (dropWhite rest) := by
  simp [punctuation?, hcs]

theorem punctuation?_eq_none {c : Char} {cs : List Char}
    (hcs : ∀ d ∈ (dropWhite cs).head?, d ≠ c) : punctuation? c cs = none := by
  unfold punctuation?
  cases hdrop : dropWhite cs with
  | nil => rfl
  | cons d rest =>
      have hne : d ≠ c := hcs d (by simp [hdrop])
      simp [hne]

theorem Follows.punctuation?_eq_none {signs r : List Char} (hr : Follows signs r) {c : Char}
    (hc : c ∈ signs) : punctuation? c r = none :=
  Expression.punctuation?_eq_none fun d hd heq => hr.next d hd (heq ▸ hc)

theorem punctuation?_dropWhite (c : Char) (cs : List Char) :
    punctuation? c (dropWhite cs) = punctuation? c cs := by
  simp [punctuation?, dropWhite_dropWhite]

/-! ### Tokens -/

theorem isNameChar_of_isNameStart {c : Char} (hc : isNameStart c) : isNameChar c := by
  simp_all [isNameStart, isNameChar, isAsciiAlphanumeric, or_assoc]
  grind

theorem isNameChar_of_isKeyChar {c : Char} (hc : isKeyChar c) : isNameChar c := by
  simp_all [isKeyChar, isNameChar]

theorem isQuote_of_isNameChar {c : Char} (hc : isNameChar c) : isQuote c = false := by
  rw [Bool.eq_false_iff]
  intro hquote
  simp only [isQuote, Bool.or_eq_true, beq_iff_eq] at hquote
  rcases hquote with rfl | rfl
  all_goals exact absurd hc (by decide)

theorem nameTail_append {cs r : List Char} (hwhole : (nameTail cs).2 = [])
    (hr : ∀ c ∈ r.head?, isNameChar c = false ∧ c ≠ '-') : nameTail (cs ++ r) = (cs, r) := by
  induction cs with
  | nil =>
      cases r with
      | nil => rfl
      | cons c r => simp [nameTail, hr c rfl]
  | cons c cs ih =>
      rw [nameTail] at hwhole
      split at hwhole
      next hc =>
        -- a dash at the end of the name would not belong to it
        have hc : isNameChar c || (c == '-' && (cs ++ r).head?.any isAsciiLetter) := by
          cases cs <;> simp_all
        rw [List.cons_append, nameTail, if_pos hc, ih hwhole]
      next => simp at hwhole

theorem exists_cons_of_name? {name : String} (hname : name? name.toList = some (name, [])) :
    ∃ c cs, name.toList = c :: cs ∧ isNameStart c ∧ (nameTail cs).2 = [] := by
  cases hcs : name.toList with
  | nil => simp [hcs, name?] at hname
  | cons c cs =>
      rw [hcs, name?] at hname
      split at hname
      next hc => exact ⟨c, cs, rfl, hc, by simp_all⟩
      next => simp at hname

theorem name?_append {name : String} {r : List Char} (hname : name? name.toList = some (name, []))
    (hr : ∀ c ∈ r.head?, isNameChar c = false ∧ c ≠ '-') :
    name? (name.toList ++ r) = some (name, r) := by
  obtain ⟨c, cs, hcs, hc, hwhole⟩ := exists_cons_of_name? hname
  have hlist : String.ofList (c :: cs) = name := by rw [← hcs, String.ofList_toList]
  simp [hcs, name?, hc, nameTail_append hwhole hr, hlist]

theorem opens_name {name : String} (hname : name? name.toList = some (name, [])) :
    Opens name.toList := by
  obtain ⟨c, cs, hcs, hc, -⟩ := exists_cons_of_name? hname
  exact ⟨c, by simp [hcs], by simp [isOpening, isNameChar_of_isNameStart hc]⟩

theorem Written.quotedTail?_append {quote : Char} (hquote : isQuote quote)
    {written content : List Char} (h : Written quote written content) (r : List Char) :
    quotedTail? quote (written ++ quote :: r) = some (content, r) := by
  have hescape : quote ≠ '\\' := ne_of_isQuote hquote rfl
  induction h with
  | nil => simp [quotedTail?, hescape]
  | plain hne hslash _ ih => simp [quotedTail?, hne, hslash, ih]
  | escaped _ ih => simp [quotedTail?, ih]

theorem IsKey.opens {t : Lexeme} {key : String} (hkey : IsKey t key) : Opens t.text := by
  cases hkey with
  | word hne htext =>
      obtain ⟨c, cs, rfl⟩ := List.exists_cons_of_ne_nil hne
      exact ⟨c, rfl, by simp [isOpening, isNameChar_of_isKeyChar (htext c (by simp))]⟩
  | string hquote => exact ⟨_, rfl, by simp [isOpening, hquote]⟩

theorem IsKey.keyText?_append {t : Lexeme} {key : String} (hkey : IsKey t key) {r : List Char}
    (hr : ∀ c ∈ r.head?, isKeyChar c = false) :
    ∃ content, keyText? (t.text ++ r) = some (content, r) ∧ String.ofList content = key := by
  cases hkey with
  | @word text hne htext =>
      obtain ⟨c, cs, rfl⟩ := List.exists_cons_of_ne_nil hne
      have hc : isKeyChar c := htext c (by simp)
      have hquote := isQuote_of_isNameChar (isNameChar_of_isKeyChar hc)
      have hstop : r.takeWhile isKeyChar = [] ∧ r.dropWhile isKeyChar = r := by
        cases r with
        | nil => simp
        | cons d r => simp [hr d rfl]
      have htake : (c :: cs ++ r).takeWhile isKeyChar = c :: cs := by
        rw [List.takeWhile_append_of_pos htext, hstop.1, List.append_nil]
      have hdrop : (c :: cs ++ r).dropWhile isKeyChar = r := by
        rw [List.dropWhile_append_of_pos htext, hstop.2]
      refine ⟨c :: cs, ?_, rfl⟩
      simp only [Lexeme.text, keyText?, List.cons_append, hquote, hc] at htake hdrop ⊢
      simp [htake, hdrop]
  | @string quote written content hquote hwritten =>
      refine ⟨content, ?_, rfl⟩
      simp [Lexeme.text, keyText?, hquote, hwritten.quotedTail?_append hquote]

/-- The gap in front of the first token is skipped. -/
theorem Layout.exists_of_opens {t : Lexeme} {ts : List Lexeme} {cs : List Char}
    (hcs : Layout (t :: ts) cs) (hadmits : t.Admits = Trivia) (hopens : Opens t.text) :
    ∃ ys, Layout ts ys ∧ t.text ++ ys <:+ cs ∧ ∀ r, skipTrivia (cs ++ r) = t.text ++ (ys ++ r) := by
  cases hcs with
  | @cons _ _ gap ys hgap hys =>
      rw [hadmits] at hgap
      refine ⟨ys, hys, List.suffix_append .., fun r => ?_⟩
      rw [List.append_assoc, List.append_assoc, hgap.skipTrivia_append,
        (hopens.append _).skipTrivia_eq]

theorem IsKey.admits {t : Lexeme} {key : String} (hkey : IsKey t key) : t.Admits = Trivia := by
  cases hkey <;> rfl

/-- A name and, in parentheses of some kind, a part. -/
theorem Layout.exists_of_enclosed {ts : List Lexeme} {word cs : List Char} {left right : Char}
    (hword : Opens word)
    (hcs : Layout (.word word :: .sign left :: (ts ++ [.sign right])) cs) :
    ∃ gap xs gap', (∀ c ∈ gap, isWhite c) ∧ (∀ c ∈ gap', isWhite c) ∧ Layout ts xs ∧
      xs.length < cs.length ∧
      ∀ r, skipTrivia (cs ++ r) = word ++ (gap ++ left :: (xs ++ (gap' ++ [right]))) ++ r := by
  obtain ⟨ys, hys, hsuffix, hstart⟩ := hcs.exists_of_opens rfl hword
  obtain ⟨gap, zs, rfl, hgap, hzs⟩ := hys.exists_of_sign
  obtain ⟨xs, us, rfl, hxs, hus⟩ := hzs.exists_of_append
  obtain ⟨gap', vs, rfl, hgap', hvs⟩ := hus.exists_of_sign
  cases hvs
  refine ⟨gap, xs, gap', hgap, hgap', hxs, ?_, fun r => by simpa [Lexeme.text] using hstart r⟩
  have hlength := hsuffix.length_le
  simp only [List.length_append, List.length_cons] at hlength
  omega

/-- A key is read up to its colon, and what is left is the layout of the value. -/
theorem IsKey.key?_layout {t : Lexeme} {mark ts : List Lexeme} {key : String} {cs : List Char}
    (hkey : IsKey t key) (hmark : mark = [] ∨ mark = [.sign '?'])
    (hcs : Layout (t :: (mark ++ .sign ':' :: ts)) cs) :
    ∃ ys, Layout ts ys ∧ ':' :: ys <:+ cs ∧
      ∀ r, key? (dropWhite (cs ++ r)) = some (key, dropWhite (ys ++ r)) := by
  obtain ⟨zs, hzs, hsuffix, hstart⟩ := hcs.exists_of_opens hkey.admits hkey.opens
  have hstop {r rest : List Char} {c : Char} (hr : dropWhite r = c :: rest)
      (hc : c = '?' ∨ c = ':') : ∀ d ∈ r.head?, isKeyChar d = false := by
    have hfollows : Follows [] r := follows_of_dropWhite hr
      (by rcases hc with rfl | rfl <;> decide) (by rcases hc with rfl | rfl <;> decide)
    intro d hd
    by_contra h
    have := isNameChar_of_isKeyChar (c := d) (by simpa using h)
    simp [(hfollows.head d hd).1] at this
  rcases hmark with rfl | rfl
  · obtain ⟨gap, ys, rfl, hgap, hys⟩ := hzs.exists_of_sign
    refine ⟨ys, hys, ((List.suffix_append ..).trans (List.suffix_append ..)).trans hsuffix, ?_⟩
    intro r
    have hcolon : dropWhite (gap ++ ':' :: (ys ++ r)) = ':' :: (ys ++ r) := dropWhite_gap hgap rfl _
    have hpunct : punctuation? ':' (':' :: (ys ++ r)) = some (dropWhite (ys ++ r)) :=
      punctuation?_eq_some (dropWhite_cons rfl _)
    obtain ⟨content, htext, rfl⟩ := hkey.keyText?_append (hstop hcolon (.inr rfl))
    simp [key?, skipTrivia_dropWhite, hstart, htext, hcolon, hpunct]
  · obtain ⟨gap, us, rfl, hgap, hus⟩ := hzs.exists_of_sign
    obtain ⟨gap', ys, rfl, hgap', hys⟩ := hus.exists_of_sign
    have hcolon : ':' :: ys <:+ gap ++ '?' :: (gap' ++ ':' :: ys) := ⟨gap ++ '?' :: gap', by simp⟩
    refine ⟨ys, hys, (hcolon.trans (List.suffix_append ..)).trans hsuffix, fun r => ?_⟩
    have hquestion : dropWhite (gap ++ '?' :: (gap' ++ ':' :: (ys ++ r))) =
        '?' :: (gap' ++ ':' :: (ys ++ r)) := dropWhite_gap hgap rfl _
    have hpunct : punctuation? ':' (gap' ++ ':' :: (ys ++ r)) = some (dropWhite (ys ++ r)) :=
      punctuation?_eq_some (dropWhite_gap hgap' rfl _)
    obtain ⟨content, htext, rfl⟩ := hkey.keyText?_append (hstop hquestion (.inl rfl))
    simp [key?, skipTrivia_dropWhite, hstart, htext, hquestion, hpunct]

/-! ### Rules -/

theorem single_dropWhite (rules : Rules) (cs : List Char) :
    single rules (dropWhite cs) = single rules cs := by
  simp only [single, skipTrivia_dropWhite]

theorem multi_dropWhite (rules : Rules) (cs : List Char) :
    multi rules (dropWhite cs) = multi rules cs := by
  simp only [multi, single_dropWhite]

/-- A part is read from the start of a text when the rules may refer to themselves `fuel` deep. The
rules for arguments and entries do so at once. -/
def ReadFrom (fuel : Nat) (text left : List Char) : Part → Prop
  | .base s => base (run fuel) (skipTrivia text) = (some s, left) ∧
      left.length < (skipTrivia text).length
  | .single s => single (run fuel) text = (some s, left)
  | .others ss => others (run fuel) (dropWhite text) = (ss, left)
  | .multi s => multi (run fuel) text = (some s, left)
  | .arguments ss => arguments (run (fuel + 1)) (dropWhite text) = (some ss, left)
  | .entries es => entries (run (fuel + 1)) (dropWhite text) = (es, left)

/-- A text is read as a part, whatever follows that does not go on the part. -/
def Part.IsReadIn (p : Part) (cs : List Char) : Prop :=
  ∀ fuel r, cs.length ≤ fuel → p.Ends r → ReadFrom fuel (cs ++ r) (dropWhite r) p

theorem base_name {rules : Rules} {name : String} (hname : name? name.toList = some (name, []))
    {r : List Char} (hr : ∀ c ∈ r.head?, isNameChar c = false ∧ c ≠ '-') :
    base rules (name.toList ++ r) = named rules name r := by
  have happend := name?_append hname hr
  obtain ⟨c, cs, hcs, hc, -⟩ := exists_cons_of_name? hname
  have hquote := isQuote_of_isNameChar (isNameChar_of_isNameStart hc)
  have hmark : c ≠ '?' := by
    rintro rfl
    exact absurd hc (by decide)
  simp only [hcs, List.cons_append] at happend ⊢
  simp [base, hquote, hmark, happend]

/-- Bases are read when they take a text that is not empty. -/
theorem readFrom_base {s : Shape} {fuel : Nat} {text cs r : List Char}
    (htext : skipTrivia text = cs ++ r) (hcs : cs ≠ [])
    (hbase : base (run fuel) (cs ++ r) = (some s, dropWhite r)) :
    ReadFrom fuel text (dropWhite r) (.base s) := by
  have hle := length_dropWhite_le r
  have hpos := List.length_pos_iff.2 hcs
  refine ⟨by rw [htext, hbase], ?_⟩
  rw [htext, List.length_append]
  omega

theorem ne_nil_of_opens {cs : List Char} (hcs : Opens cs) : cs ≠ [] := by
  rintro rfl
  simp [Opens] at hcs

theorem isReadIn_name {name : String} (hname : name? name.toList = some (name, []))
    {cs : List Char} (hcs : Layout [.word name.toList] cs) :
    (Part.base (.plain name)).IsReadIn cs := by
  intro fuel r _ hr
  obtain ⟨ys, hys, -, hstart⟩ := hcs.exists_of_opens rfl (opens_name hname)
  cases hys
  apply readFrom_base (hstart r) (ne_nil_of_opens (opens_name hname))
  rw [List.nil_append, Lexeme.text, base_name hname hr.head, named,
    hr.punctuation?_eq_none (by simp)]
  dsimp only
  split
  next heq => exact absurd (hr.next '{' (by simp [heq])) (by simp)
  next => rfl

theorem isReadIn_string {quote : Char} {written content : List Char} (hquote : isQuote quote)
    (hwritten : Written quote written content) {cs : List Char}
    (hcs : Layout [.string quote written] cs) :
    (Part.base (.str (String.ofList content))).IsReadIn cs := by
  intro fuel r _ _
  obtain ⟨ys, hys, -, hstart⟩ := hcs.exists_of_opens rfl ⟨quote, rfl, by simp [isOpening, hquote]⟩
  cases hys
  apply readFrom_base (hstart r) (by simp [Lexeme.text])
  have hmark : quote ≠ '?' := ne_of_isQuote hquote rfl
  simp [Lexeme.text, base, hmark, hquote, hwritten.quotedTail?_append hquote]

theorem isReadIn_named {name : String} (hname : name? name.toList = some (name, []))
    {ts : List Lexeme} {ss : List Shape}
    (hs : ∀ {cs}, Layout ts cs → (Part.arguments ss).IsReadIn cs) {cs : List Char}
    (hcs : Layout (.word name.toList :: .sign '<' :: (ts ++ [.sign '>'])) cs) :
    (Part.base (.ofName name ss)).IsReadIn cs := by
  intro fuel r hfuel _
  obtain ⟨gap, xs, gap', hgap, hgap', hxs, hlength, hstart⟩ :=
    hcs.exists_of_enclosed (opens_name hname)
  apply readFrom_base (hstart r) (by simp)
  obtain ⟨fuel, rfl⟩ : ∃ k, fuel = k + 1 := Nat.exists_eq_succ_of_ne_zero (by omega)
  have hopen : dropWhite (gap ++ '<' :: (xs ++ (gap' ++ '>' :: r))) =
      '<' :: (xs ++ (gap' ++ '>' :: r)) := dropWhite_gap hgap rfl _
  have hclose : dropWhite (gap' ++ '>' :: r) = '>' :: r := dropWhite_gap hgap' rfl _
  have hread := hs hxs fuel (gap' ++ '>' :: r) (by omega)
    (follows_of_dropWhite hclose rfl (by simp))
  have hfollows : Follows [] (gap ++ '<' :: (xs ++ (gap' ++ '>' :: r))) :=
    follows_of_dropWhite hopen rfl (by simp)
  simp only [ReadFrom, hclose] at hread
  simp only [List.append_assoc, List.cons_append, List.nil_append]
  rw [base_name hname hfollows.head, named, punctuation?_eq_some hopen]
  simp only [hread, punctuation?_eq_some (dropWhite_cons (c := '>') rfl r)]

theorem key?_eq_none {c : Char} (hwhite : isWhite c = false) (hslash : c ≠ '/')
    (hquote : isQuote c = false) (hkey : isKeyChar c = false) (cs : List Char) :
    key? (c :: cs) = none := by
  rw [key?, skipTrivia_cons hwhite hslash]
  simp [keyText?, hquote, hkey]

theorem isReadIn_record {ts : List Lexeme} {es : List (Shape × Shape)}
    (hs : ∀ {cs}, Layout ts cs → (Part.entries es).IsReadIn cs) {cs : List Char}
    (hcs : Layout (.word "array".toList :: .sign '{' :: (ts ++ [.sign '}'])) cs) :
    (Part.base (.ofEntries es none)).IsReadIn cs := by
  intro fuel r hfuel _
  obtain ⟨gap, xs, gap', hgap, hgap', hxs, hlength, hstart⟩ :=
    hcs.exists_of_enclosed ⟨'a', rfl, rfl⟩
  apply readFrom_base (hstart r) (by simp)
  obtain ⟨fuel, rfl⟩ : ∃ k, fuel = k + 1 := Nat.exists_eq_succ_of_ne_zero (by omega)
  have hopen : dropWhite (gap ++ '{' :: (xs ++ (gap' ++ '}' :: r))) =
      '{' :: (xs ++ (gap' ++ '}' :: r)) := dropWhite_gap hgap rfl _
  have hclose : dropWhite (gap' ++ '}' :: r) = '}' :: r := dropWhite_gap hgap' rfl _
  have hread := hs hxs fuel (gap' ++ '}' :: r) (by omega)
    ⟨follows_of_dropWhite hclose rfl (by simp),
      by rw [hclose, key?_eq_none rfl (by decide) rfl rfl]⟩
  have hfollows : Follows ['<'] (gap ++ '{' :: (xs ++ (gap' ++ '}' :: r))) :=
    follows_of_dropWhite hopen rfl (by simp)
  have hcomma : punctuation? ',' ('}' :: r) = none :=
    punctuation?_eq_none (by simp [dropWhite_cons (c := '}') rfl])
  simp only [ReadFrom, hclose] at hread
  simp only [List.append_assoc, List.cons_append, List.nil_append]
  rw [base_name (by decide) hfollows.head, named, hfollows.punctuation?_eq_none (by simp), hopen]
  simp [record, hread, hcomma, punctuation?_eq_some (dropWhite_cons (c := '}') rfl r)]

theorem suffix_eq {r : List Char} (hr : ∀ c ∈ (dropWhite r).head?, c ≠ '[') (s : Shape) :
    suffix s r = (s, r) := by
  rw [suffix]
  split
  next heq => exact absurd rfl (hr '[' (by simp [heq]))
  next => rfl

theorem suffix_of_follows {r : List Char} (hr : Follows ['['] r) (s : Shape) :
    suffix s (dropWhite r) = (s, dropWhite r) :=
  suffix_eq (by simpa [dropWhite_dropWhite] using hr.next) s

theorem brackets_eq {r : List Char} (hr : Follows ['['] r) (n : Nat) (s : Shape) :
    brackets s ((List.replicate n ['[', ']']).flatten ++ r) = (Shape.list^[n] s, r) := by
  induction n generalizing s with
  | zero =>
      rw [List.replicate_zero, List.flatten_nil, List.nil_append]
      cases r with
      | nil => rfl
      | cons c r =>
          have hc : c ≠ '[' := by
            rintro rfl
            exact absurd (hr.next '[' (by simp [dropWhite_cons (c := '[') rfl])) (by simp)
          unfold brackets
          split
          next heq => exact absurd (List.cons.inj heq).1 hc
          next => rfl
  | succ n ih => exact ih (.list s)

theorem isReadIn_single {ts : List Lexeme} {s : Shape} {n : Nat}
    (hs : ∀ {cs}, Layout ts cs → (Part.base s).IsReadIn cs) {cs : List Char}
    (hcs : Layout (ts ++ bracketRow n) cs) : (Part.single (Shape.list^[n] s)).IsReadIn cs := by
  intro fuel r hfuel hr
  obtain ⟨xs, ys, rfl, hxs, hys⟩ := hcs.exists_of_append
  obtain ⟨gap, hgap, rfl, hnil⟩ := hys.exists_of_bracketRow
  have hends : Follows ['['] r := hr.mono (by simp)
  rw [List.length_append] at hfuel
  cases n with
  | zero =>
      obtain rfl := hnil rfl
      obtain ⟨hbase, hlt⟩ := hs hxs fuel r (by omega) (hr.mono (by simp))
      simp only [ReadFrom, List.replicate_zero, List.flatten_nil, List.append_nil, single, hbase,
        if_pos hlt, suffix_of_follows hends, Function.iterate_zero, id_eq]
  | succ n =>
      -- for the base, the brackets and what is behind them are what follows
      have hopen : dropWhite (gap ++ (List.replicate (n + 1) ['[', ']']).flatten ++ r) =
          '[' :: ']' :: ((List.replicate n ['[', ']']).flatten ++ r) := by
        rw [List.append_assoc, dropWhite_append hgap]
        rfl
      obtain ⟨hbase, hlt⟩ := hs hxs fuel (gap ++ (List.replicate (n + 1) ['[', ']']).flatten ++ r)
        (by omega) (follows_of_dropWhite hopen rfl (by simp))
      rw [hopen] at hbase hlt
      have hdrop : dropWhite ('[' :: ']' :: ((List.replicate n ['[', ']']).flatten ++ r)) =
          '[' :: ']' :: ((List.replicate n ['[', ']']).flatten ++ r) := dropWhite_cons rfl _
      rw [ReadFrom, single, List.append_assoc, hbase]
      simp only [if_pos hlt, suffix, hdrop, brackets_eq hends, Function.iterate_succ_apply]

theorem isReadIn_nullable {ts : List Lexeme} {s : Shape}
    (hs : ∀ {cs}, Layout ts cs → (Part.single s).IsReadIn cs) {cs : List Char}
    (hcs : Layout (.nullable :: ts) cs) :
    (Part.single (.union [s, .plain "null"])).IsReadIn cs := by
  intro fuel r hfuel hr
  obtain ⟨ys, hys, hsuffix, hstart⟩ := hcs.exists_of_opens rfl ⟨'?', rfl, rfl⟩
  have hlength := hsuffix.length_le
  simp only [Lexeme.text, List.length_append, List.length_singleton] at hlength
  obtain ⟨fuel, rfl⟩ : ∃ k, fuel = k + 1 := Nat.exists_eq_succ_of_ne_zero (by omega)
  have hread : run (fuel + 1) .single (ys ++ r) = (some s, dropWhite r) :=
    hs hys fuel r (by omega) hr
  have hle := length_dropWhite_le r
  simp only [ReadFrom, single, hstart, Lexeme.text, List.cons_append, List.nil_append, base, hread]
  simp only [beq_self_eq_true, if_true, Option.map_some]
  rw [if_pos (by simp only [List.length_cons, List.length_append]; omega),
    suffix_of_follows (hr.mono (by simp))]

/-- Other alternatives do not go on the single type in front of them. -/
theorem follows_of_others {ts : List Lexeme} {ss : List Shape} (hs : Derives ts (.others ss))
    {cs : List Char} (hcs : Layout ts cs) {r : List Char} (hr : (Part.others ss).Ends r) :
    (Part.single .any).Ends (cs ++ r) := by
  cases hs with
  | last =>
      cases hcs
      exact hr.mono (by simp)
  | other _ _ =>
      obtain ⟨gap, ys, rfl, hgap, -⟩ := hcs.exists_of_sign
      have hbar : dropWhite (gap ++ '|' :: ys ++ r) = '|' :: (ys ++ r) := by
        rw [List.append_assoc]
        exact dropWhite_gap hgap rfl _
      exact follows_of_dropWhite hbar rfl (by simp)

theorem isReadIn_last {cs : List Char} (hcs : Layout [] cs) : (Part.others []).IsReadIn cs := by
  intro fuel r _ hr
  cases hcs
  rw [ReadFrom, List.nil_append, others, punctuation?_dropWhite, hr.punctuation?_eq_none (by simp)]

theorem isReadIn_other {ts us : List Lexeme} {s : Shape} {ss : List Shape}
    (hus : Derives us (.others ss)) (hs : ∀ {cs}, Layout ts cs → (Part.single s).IsReadIn cs)
    (hss : ∀ {cs}, Layout us cs → (Part.others ss).IsReadIn cs) {cs : List Char}
    (hcs : Layout (.sign '|' :: (ts ++ us)) cs) : (Part.others (s :: ss)).IsReadIn cs := by
  intro fuel r hfuel hr
  obtain ⟨gap, zs, rfl, hgap, hzs⟩ := hcs.exists_of_sign
  obtain ⟨xs, ys, rfl, hxs, hys⟩ := hzs.exists_of_append
  simp only [List.length_append, List.length_cons] at hfuel
  have hbar : dropWhite (gap ++ '|' :: (xs ++ (ys ++ r))) = '|' :: (xs ++ (ys ++ r)) :=
    dropWhite_gap hgap rfl _
  have hsingle : single (run fuel) (xs ++ (ys ++ r)) = (some s, dropWhite (ys ++ r)) :=
    hs hxs fuel (ys ++ r) (by omega) (follows_of_others hus hys hr)
  have hrest : others (run fuel) (dropWhite (ys ++ r)) = (ss, dropWhite r) :=
    hss hys fuel r (by omega) hr
  have hle := length_dropWhite_le (ys ++ r)
  simp only [ReadFrom, List.append_assoc, List.cons_append, hbar]
  rw [others, punctuation?_eq_some (dropWhite_cons rfl _)]
  simp only [single_dropWhite, hsingle, hrest]
  rw [if_pos (by simp only [List.length_cons, List.length_append] at hle ⊢; omega)]

theorem isReadIn_multi {ts us : List Lexeme} {s : Shape} {ss : List Shape}
    (hus : Derives us (.others ss)) (hs : ∀ {cs}, Layout ts cs → (Part.single s).IsReadIn cs)
    (hss : ∀ {cs}, Layout us cs → (Part.others ss).IsReadIn cs) {cs : List Char}
    (hcs : Layout (ts ++ us) cs) : (Part.multi (.oneOf (s :: ss))).IsReadIn cs := by
  intro fuel r hfuel hr
  obtain ⟨xs, ys, rfl, hxs, hys⟩ := hcs.exists_of_append
  rw [List.length_append] at hfuel
  have hsingle : single (run fuel) (xs ++ (ys ++ r)) = (some s, dropWhite (ys ++ r)) :=
    hs hxs fuel (ys ++ r) (by omega) (follows_of_others hus hys hr)
  have hrest : others (run fuel) (dropWhite (ys ++ r)) = (ss, dropWhite r) :=
    hss hys fuel r (by omega) hr
  simp only [ReadFrom, List.append_assoc, multi, hsingle, hrest]

theorem isReadIn_argument {ts : List Lexeme} {s : Shape}
    (hs : ∀ {cs}, Layout ts cs → (Part.multi s).IsReadIn cs) {cs : List Char}
    (hcs : Layout ts cs) : (Part.arguments [s]).IsReadIn cs := by
  intro fuel r hfuel hr
  have hread : run (fuel + 1) .multi (dropWhite (cs ++ r)) = (some s, dropWhite r) := by
    rw [run, multi_dropWhite]
    exact hs hcs fuel r hfuel (hr.mono (by simp))
  rw [ReadFrom, arguments, hread]
  simp only [punctuation?_dropWhite, hr.punctuation?_eq_none (c := ',') (by simp)]

/-- Arguments and values are read up to the comma behind them. -/
theorem run_multi_comma {s : Shape} {xs : List Char} (hs : (Part.multi s).IsReadIn xs) (fuel : Nat)
    (hfuel : xs.length ≤ fuel) {gap : List Char} (hgap : ∀ c ∈ gap, isWhite c) (cs : List Char) :
    run (fuel + 1) .multi (dropWhite (xs ++ (gap ++ ',' :: cs))) = (some s, ',' :: cs) := by
  have hcomma : dropWhite (gap ++ ',' :: cs) = ',' :: cs := dropWhite_gap hgap rfl _
  have hread : multi (run fuel) (xs ++ (gap ++ ',' :: cs)) =
      (some s, dropWhite (gap ++ ',' :: cs)) :=
    hs fuel _ hfuel (follows_of_dropWhite hcomma rfl (by simp))
  rw [run, multi_dropWhite, hread, hcomma]

theorem isReadIn_arguments {ts us : List Lexeme} {s : Shape} {ss : List Shape}
    (hs : ∀ {cs}, Layout ts cs → (Part.multi s).IsReadIn cs)
    (hss : ∀ {cs}, Layout us cs → (Part.arguments ss).IsReadIn cs) {cs : List Char}
    (hcs : Layout (ts ++ .sign ',' :: us) cs) : (Part.arguments (s :: ss)).IsReadIn cs := by
  intro fuel r hfuel hr
  obtain ⟨xs, zs, rfl, hxs, hzs⟩ := hcs.exists_of_append
  obtain ⟨gap, ys, rfl, hgap, hys⟩ := hzs.exists_of_sign
  simp only [List.length_append, List.length_cons] at hfuel
  have hread := run_multi_comma (hs hxs) fuel (by omega) hgap (ys ++ r)
  have hrest : arguments (run (fuel + 1)) (dropWhite (ys ++ r)) = (some ss, dropWhite r) :=
    hss hys fuel r (by omega) hr
  have hlt := length_lt_dropWhite (c := ',') rfl (xs ++ gap) (ys ++ r)
  have hle := length_dropWhite_le (ys ++ r)
  simp only [List.append_assoc] at hlt
  simp only [ReadFrom, List.append_assoc, List.cons_append]
  rw [arguments, hread]
  simp only [punctuation?_eq_some (dropWhite_cons (c := ',') rfl (ys ++ r)), hrest]
  rw [if_pos (by omega), Option.map_some]

theorem isReadIn_empty {cs : List Char} (hcs : Layout [] cs) : (Part.entries []).IsReadIn cs := by
  intro fuel r _ hr
  cases hcs
  rw [ReadFrom, List.nil_append, entries, hr.2]

theorem isReadIn_entry {t : Lexeme} {mark ts : List Lexeme} {key : String} {s : Shape}
    (hkey : IsKey t key) (hmark : mark = [] ∨ mark = [.sign '?'])
    (hs : ∀ {cs}, Layout ts cs → (Part.multi s).IsReadIn cs) {cs : List Char}
    (hcs : Layout (t :: (mark ++ .sign ':' :: ts)) cs) :
    (Part.entries [(.str key, s)]).IsReadIn cs := by
  intro fuel r hfuel hr
  obtain ⟨ys, hys, hsuffix, hread⟩ := hkey.key?_layout hmark hcs
  have hlength := hsuffix.length_le
  have hvalue : run (fuel + 1) .multi (dropWhite (ys ++ r)) = (some s, dropWhite r) := by
    rw [run, multi_dropWhite]
    rw [List.length_cons] at hlength
    exact hs hys fuel r (by omega) (hr.1.mono (by simp))
  rw [ReadFrom, entries, hread]
  simp only [hvalue, punctuation?_dropWhite, hr.1.punctuation?_eq_none (c := ',') (by simp)]

theorem isReadIn_entries {t : Lexeme} {mark ts us : List Lexeme} {key : String} {s : Shape}
    {es : List (Shape × Shape)} (hkey : IsKey t key) (hmark : mark = [] ∨ mark = [.sign '?'])
    (hs : ∀ {cs}, Layout ts cs → (Part.multi s).IsReadIn cs)
    (hes : ∀ {cs}, Layout us cs → (Part.entries es).IsReadIn cs) {cs : List Char}
    (hcs : Layout (t :: (mark ++ .sign ':' :: (ts ++ .sign ',' :: us))) cs) :
    (Part.entries ((.str key, s) :: es)).IsReadIn cs := by
  intro fuel r hfuel hr
  obtain ⟨zs, hzs, hsuffix, hread⟩ := hkey.key?_layout hmark hcs
  obtain ⟨xs, us, rfl, hxs, hus⟩ := hzs.exists_of_append
  obtain ⟨gap, ys, rfl, hgap, hys⟩ := hus.exists_of_sign
  have hlength := hsuffix.length_le
  simp only [List.length_append, List.length_cons] at hlength
  have hvalue := run_multi_comma (hs hxs) fuel (by omega) hgap (ys ++ r)
  have hrest : entries (run (fuel + 1)) (dropWhite (ys ++ r)) = (es, dropWhite r) :=
    hes hys fuel r (by omega) hr
  have hlt : (dropWhite (ys ++ r)).length < (dropWhite (cs ++ r)).length := by
    obtain ⟨zs, rfl⟩ := hsuffix
    have hlt := length_lt_dropWhite (c := ',') rfl (zs ++ ':' :: (xs ++ gap)) (ys ++ r)
    have hle := length_dropWhite_le (ys ++ r)
    simp only [List.append_assoc, List.cons_append] at hlt ⊢
    omega
  rw [ReadFrom, entries, hread]
  simp only [List.append_assoc, List.cons_append, hvalue,
    punctuation?_eq_some (dropWhite_cons (c := ',') rfl (ys ++ r)), hrest]
  rw [if_pos hlt]

/-! ### Expressions -/

/-- Every layout of a derivation is read as what it means. -/
theorem Derives.isReadIn {ts : List Lexeme} {p : Part} (h : Derives ts p) {cs : List Char}
    (hcs : Layout ts cs) : p.IsReadIn cs := by
  induction h generalizing cs with
  | name hname => exact isReadIn_name hname hcs
  | string hquote hwritten => exact isReadIn_string hquote hwritten hcs
  | named hname _ ih => exact isReadIn_named hname ih hcs
  | record _ ih => exact isReadIn_record ih hcs
  | single _ _ ih => exact isReadIn_single ih hcs
  | nullable _ ih => exact isReadIn_nullable ih hcs
  | last => exact isReadIn_last hcs
  | other _ hss ihs ihss => exact isReadIn_other hss ihs ihss hcs
  | multi _ hss ihs ihss => exact isReadIn_multi hss ihs ihss hcs
  | argument _ ih => exact isReadIn_argument ih hcs
  | arguments _ _ ihs ihss => exact isReadIn_arguments ihs ihss hcs
  | empty => exact isReadIn_empty hcs
  | entry hkey hmark _ ih => exact isReadIn_entry hkey hmark ih hcs
  | entries hkey hmark _ _ ihs ihes => exact isReadIn_entries hkey hmark ihs ihes hcs

theorem readExpression_layout {ts : List Lexeme} {s : Shape} (hs : Derives ts (.multi s))
    {cs r : List Char} (hcs : Layout ts cs) (hr : Ends r) :
    readExpression (cs ++ r) = (some s, dropWhite r) :=
  hs.isReadIn hcs (cs ++ r).length r (by simp) hr

/-- Whatever a layout puts between the tokens, the same is read. A comment behind an expression ends
it, whatever follows the comment. -/
theorem expression?_layout {ts : List Lexeme} {s : Shape} (hs : Derives ts (.multi s))
    {cs : List Char} (hcs : Layout ts cs) :
    expression? (String.ofList cs) = some (s, "") ∧
      ∀ gap text, (∀ c ∈ gap, isWhite c) →
        expression? (String.ofList (cs ++ (gap ++ '/' :: '/' :: text))) =
          some (s, String.ofList ('/' :: '/' :: text)) := by
  constructor
  · have hread := readExpression_layout hs hcs (r := []) ⟨by simp, by simp [dropWhite]⟩
    rw [List.append_nil] at hread
    simp [expression?, hread, dropWhite]
  · intro gap text hgap
    have hcomment : dropWhite (gap ++ '/' :: '/' :: text) = '/' :: '/' :: text :=
      dropWhite_gap hgap rfl _
    have hread := readExpression_layout hs hcs (follows_of_dropWhite hcomment rfl (by simp))
    simp [expression?, hread, hcomment]

theorem layout_flatMap {ps : List (List Char × Lexeme)} (hps : ∀ p ∈ ps, p.2.Admits p.1) :
    Layout (ps.map Prod.snd) (ps.flatMap fun p => p.1 ++ p.2.text) := by
  induction ps with
  | nil => exact .nil
  | cons p ps ih =>
      rw [List.forall_mem_cons] at hps
      rw [List.map_cons, List.flatMap_cons, List.append_assoc]
      exact (ih hps.2).cons hps.1

/-- The tokens of a record with an optional entry, each with what stands in front of it. -/
def someTokens : List (List Char × Lexeme) :=
  [([], .word "array".toList), ([' '], .sign '{'), (" // key\n".toList, .word "id".toList),
    ([' '], .sign '?'), ([], .sign ':'), ("// value\n".toList, .nullable), ([], .word "int".toList),
    ([' '], .brackets), ([], .moreBrackets), ([' '], .sign '|'), ([' '], .string '\'' ['x']),
    ([], .sign ','), (['\n'], .sign '}')]

def someRecord : Shape :=
  .record
    [(.str "id", .union [.union [.list (.list (.plain "int")), .plain "null"], .str "x"])] none

theorem derives_someTokens : Derives (someTokens.map Prod.snd) (.multi someRecord) := by
  have hid : IsKey (.word "id".toList) "id" := .word (by decide) (List.all_eq_true.mp (by decide))
  have hint : Derives [.word "int".toList] (.base (.plain "int")) := .name (by decide)
  have hx : Derives [.string '\'' ['x']] (.base (.str "x")) :=
    .string rfl (.plain (by decide) (by decide) .nil)
  have hvalue := (hint.single 2).nullable.multi ((hx.single 0).other .last)
  exact ((Derives.entries hid (.inr rfl) hvalue .empty).record.single 0).multi .last

theorem layout_someTokens :
    Layout (someTokens.map Prod.snd)
      "array \x7b // key\nid ?:// value\n?int [][] | 'x',\n\x7d".toList := by
  have hkey : Trivia " // key\n".toList :=
    .white rfl (@Trivia.comment " key".toList [] (by decide) .nil)
  have hvalue : Trivia "// value\n".toList := @Trivia.comment " value".toList [] (by decide) .nil
  have hblank : Trivia [' '] := .white rfl .nil
  have hadmits : ∀ p ∈ someTokens, p.2.Admits p.1 := by
    simpa [someTokens, Lexeme.Admits, hblank, Trivia.nil, isWhite] using And.intro hkey hvalue
  exact layout_flatMap hadmits

theorem expression?_someTokens :
    expression? "array \x7b // key\nid ?:// value\n?int [][] | 'x',\n\x7d" = some (someRecord, "") ∧
    expression? "array \x7b // key\nid ?:// value\n?int [][] | 'x',\n\x7d // comment\n|null" =
      some (someRecord, "// comment\n|null") := by
  have hread := expression?_layout derives_someTokens layout_someTokens
  exact ⟨hread.1, hread.2 [' '] " comment\n|null".toList (by simp [isWhite])⟩

end ArrayShapes.Doc.Expression
