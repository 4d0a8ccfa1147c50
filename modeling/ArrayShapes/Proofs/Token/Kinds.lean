import ArrayShapes.Proofs.Token.Tiling

/-!
How tokens of each kind are cut, and where their problems start. `CodeCut` lists the ways to cut a
token off code, so that what holds of all tokens is proved of one way after the other.
-/

namespace ArrayShapes.Scan

open Text

variable {cs : List Char} {cut : Cut}

/-! ### Ways to cut -/

theorem blockComment_form (cs : List Char) : ∃ kind length,
    (kind = .comment ∨ kind = .documentComment) ∧
    (blockComment cs = { kind, length } ∨ blockComment cs = .faulty kind length (.expected "*/")) := by
  unfold blockComment
  extract_lets kind
  have hkind : kind = .comment ∨ kind = .documentComment := by
    simp only [kind]
    split
    · split
      · exact .inr rfl
      · exact .inl rfl
    · exact .inl rfl
  split
  · exact ⟨kind, _, hkind, .inl rfl⟩
  · exact ⟨kind, _, hkind, .inr rfl⟩

theorem heredoc?_form (h : heredoc? cs = some cut) : ∃ length,
    cut = { kind := .heredoc, length } ∨ cut = .faulty .heredoc length .unterminatedHeredoc := by
  unfold heredoc? at h
  extract_lets at h
  simp only [Option.bind_eq_bind, Option.bind_eq_some_iff, Option.pure_def, Option.some.injEq] at h
  obtain ⟨_, _, _, _, _, _, rfl⟩ := h
  split
  · exact ⟨_, .inl rfl⟩
  · exact ⟨_, .inr rfl⟩

theorem cast?_form (h : cast? cs = some cut) : ∃ length, cut = { kind := .castOperator, length } := by
  unfold cast? at h
  extract_lets at h
  split at h
  · cases h
    exact ⟨_, rfl⟩
  · cases h

theorem number_form (cs : List Char) : ∃ kind length,
    (kind = .integerLiteral ∨ kind = .floatingLiteral) ∧ number cs = { kind, length } := by
  have hdecimal : ∃ kind length, (kind = .integerLiteral ∨ kind = .floatingLiteral) ∧
      decimal cs = { kind, length } := by
    refine ⟨_, _, ?_, rfl⟩
    split
    · exact .inl rfl
    · exact .inr rfl
  unfold number
  split
  · split
    · exact ⟨_, _, .inl rfl, rfl⟩
    · exact hdecimal
  · exact hdecimal

def operatorKinds : List TokenKind := .unknown :: operators.map Prod.snd

theorem operator_form (cs : List Char) : ∃ kind length, kind ∈ operatorKinds ∧
    (operator cs = { kind, length } ∨ operator cs = .faulty kind length .unexpectedCharacter) := by
  unfold operator
  split
  · rename_i hfind
    have hmem := List.mem_map_of_mem (f := Prod.snd) (List.mem_of_find?_eq_some hfind)
    exact ⟨_, _, List.mem_cons_of_mem _ hmem, .inl rfl⟩
  · exact ⟨_, _, List.mem_cons_self, .inr rfl⟩

/-- The ways to cut a token off code. -/
inductive CodeCut : List Char → Cut → Prop
  | attributes (cs : List Char) : CodeCut ('#' :: '[' :: cs) (attributeGroup ('#' :: '[' :: cs))
  | lineComment (cs : List Char) : CodeCut cs { kind := .comment, length := lineCommentLength 0 cs }
  | blockComment (cs : List Char) : CodeCut ('/' :: '*' :: cs) (blockComment ('/' :: '*' :: cs))
  | closeTag (cs : List Char) : CodeCut ('?' :: '>' :: cs) (closeTag cs)
  | cast {cs : List Char} {cut : Cut} (h : cast? cs = some cut) : CodeCut cs cut
  | openParen (cs : List Char) : CodeCut ('(' :: cs) { kind := .openParen, length := 1 }
  | heredoc {cs : List Char} {cut : Cut} (h : heredoc? cs = some cut) : CodeCut cs cut
  | blank (cs : List Char) : CodeCut cs { kind := .whitespace, length := run isBlank cs }
  | string {quote : Char} (h : isQuote quote = true) (cs : List Char) :
      CodeCut (quote :: cs) (string quote (quote :: cs))
  | number (cs : List Char) : CodeCut cs (number cs)
  | variableName (cs : List Char) :
      CodeCut ('$' :: cs) { kind := .variableName, length := 1 + run isNamePart cs }
  | name (c : Char) (cs : List Char) :
      CodeCut (c :: cs) { kind := .name, length := nameLength 1 cs }
  | operator (cs : List Char) : CodeCut cs (operator cs)

theorem code_cases (cs : List Char) : CodeCut cs (code cs) := by
  unfold code
  split
  · exact .attributes _
  · exact .lineComment _
  · exact .lineComment _
  · exact .blockComment _
  · exact .closeTag _
  · rename_i rest
    cases hcast : cast? ('(' :: rest) with
    | none => exact .openParen rest
    | some cut => exact .cast hcast
  · rename_i rest
    cases hdoc : heredoc? ('<' :: '<' :: '<' :: rest) with
    | none => exact .operator _
    | some cut => exact .heredoc hdoc
  · rename_i c rest _ _ _ _ _ _ _
    split
    · exact .blank _
    · split
      · rename_i hquote
        exact .string hquote rest
      · split
        · exact .number _
        · split
          · rename_i hvariable
            obtain rfl := eq_of_beq (Bool.and_eq_true_iff.1 hvariable).1
            exact .variableName rest
          · split
            · exact .name c rest
            · exact .operator _
  · exact .operator _

/-! ### Kinds and ways -/

theorem attributeGroup_kind (cs : List Char) : (attributeGroup cs).kind = .comment := by
  unfold attributeGroup
  split <;> rfl

/-- The kind of a token tells whether it is a string, blank text or a number. -/
theorem CodeCut.by_kind (h : CodeCut cs cut) :
    (∃ quote rest, cs = quote :: rest ∧ isQuote quote = true ∧
      cut = Scan.string quote (quote :: rest)) ∨
    cut = { kind := .whitespace, length := run isBlank cs } ∨ cut = Scan.number cs ∨
    cut.kind ∉ [.stringLiteral, .whitespace, .integerLiteral, .floatingLiteral] := by
  cases h with
  | string hquote rest => exact .inl ⟨_, rest, rfl, hquote, rfl⟩
  | blank => exact .inr (.inl rfl)
  | number => exact .inr (.inr (.inl rfl))
  | attributes cs => simp [attributeGroup_kind]
  | blockComment cs =>
      obtain ⟨kind, length, rfl | rfl, hcut | hcut⟩ := blockComment_form ('/' :: '*' :: cs)
      all_goals simp [hcut, Cut.faulty]
  | cast hcast =>
      obtain ⟨length, rfl⟩ := cast?_form hcast
      simp
  | heredoc hdoc =>
      obtain ⟨length, rfl | rfl⟩ := heredoc?_form hdoc <;> simp [Cut.faulty]
  | operator =>
      have hkinds : ∀ kind ∈ operatorKinds,
          kind ∉ [.stringLiteral, .whitespace, .integerLiteral, .floatingLiteral] := by decide
      obtain ⟨kind, length, hmem, hcut | hcut⟩ := operator_form cs
      all_goals
        rw [hcut]
        exact .inr (.inr (.inr (hkinds kind hmem)))
  | lineComment | closeTag | openParen | variableName | name => simp [Scan.closeTag]

/-- Only a quote starts a string. -/
theorem CodeCut.eq_string (h : CodeCut cs cut) (hkind : cut.kind = .stringLiteral) :
    ∃ quote rest, cs = quote :: rest ∧ isQuote quote = true ∧
      cut = Scan.string quote (quote :: rest) := by
  rcases h.by_kind with hstring | rfl | rfl | hother
  · exact hstring
  · cases hkind
  · obtain ⟨kind, length, rfl | rfl, hcut⟩ := number_form cs <;> rw [hcut] at hkind <;> cases hkind
  · simp [hkind] at hother

theorem string_kind (quote : Char) (cs : List Char) : (string quote cs).kind = .stringLiteral := by
  unfold string
  split <;> rfl

theorem CodeCut.eq_blank (h : CodeCut cs cut) (hkind : cut.kind = .whitespace) :
    cut.length = run isBlank cs := by
  rcases h.by_kind with ⟨quote, rest, -, -, rfl⟩ | rfl | rfl | hother
  · rw [string_kind] at hkind
    cases hkind
  · rfl
  · obtain ⟨kind, length, rfl | rfl, hcut⟩ := number_form cs <;> rw [hcut] at hkind <;> cases hkind
  · simp [hkind] at hother

theorem CodeCut.eq_number (h : CodeCut cs cut) (hkind : cut.kind = .integerLiteral) :
    cut = Scan.number cs := by
  rcases h.by_kind with ⟨quote, rest, -, -, rfl⟩ | rfl | rfl | hother
  · rw [string_kind] at hkind
    cases hkind
  · cases hkind
  · rfl
  · simp [hkind] at hother

theorem markup_not_isLiteral (cs : List Char) : (markup cs).kind.isLiteral = false := by
  unfold markup
  split
  · unfold openTag
    split
    · rfl
    · split <;> rfl
  · rfl

theorem Mode.cut_eq_string {mode : Mode} (hkind : (mode.cut cs).kind = .stringLiteral) :
    ∃ quote rest, cs = quote :: rest ∧ isQuote quote = true ∧
      mode.cut cs = Scan.string quote (quote :: rest) := by
  cases mode with
  | markup =>
      have hliteral : (Mode.markup.cut cs).kind.isLiteral = false := markup_not_isLiteral cs
      rw [hkind] at hliteral
      cases hliteral
  | code => exact (code_cases cs).eq_string hkind

theorem Mode.cut_eq_blank {mode : Mode} (hkind : (mode.cut cs).kind = .whitespace) :
    (mode.cut cs).length = run isBlank cs := by
  cases mode with
  | markup =>
      have htrivia : (Mode.markup.cut cs).kind.isTrivia = false := markup_not_isTrivia cs
      rw [hkind] at htrivia
      cases htrivia
  | code => exact (code_cases cs).eq_blank hkind

theorem Mode.cut_eq_number {mode : Mode} (hkind : (mode.cut cs).kind = .integerLiteral) :
    mode.cut cs = number cs := by
  cases mode with
  | markup =>
      have hliteral : (Mode.markup.cut cs).kind.isLiteral = false := markup_not_isLiteral cs
      rw [hkind] at hliteral
      cases hliteral
  | code => exact (code_cases cs).eq_number hkind

/-! ### Where problems start -/

/-- What is wrong with a token is wrong with at least one of its characters. -/
def Cut.Tangible (cut : Cut) : Prop := ∀ f ∈ cut.faults, 0 < f.length

theorem Cut.Tangible.clean {kind : TokenKind} {length : Nat} {mode : Mode} :
    Cut.Tangible ⟨kind, length, [], mode⟩ := by
  simp [Cut.Tangible]

theorem Cut.Tangible.faulty {kind : TokenKind} {length : Nat} {problem : Problem}
    (h : 0 < length) : (Cut.faulty kind length problem).Tangible := by
  simpa [Cut.Tangible, Cut.faulty] using h

theorem string_tangible (quote : Char) (cs : List Char) : (string quote cs).Tangible := by
  unfold string
  split
  · exact .clean
  · exact .faulty (by omega)

theorem attributeFrom_tangible {n depth skip : Nat} {faults : List Fault}
    (hfaults : ∀ f ∈ faults, 0 < f.length) :
    ∀ f ∈ (attributeFrom n depth skip faults cs).2.2, 0 < f.length := by
  fun_induction attributeFrom n depth skip faults cs with
  | case1 => exact hfaults
  | case2 _ _ _ _ _ _ _ ih => exact ih hfaults
  | case3 n depth skip faults c cs _ _ cut moved ih =>
      refine ih fun f hf => ?_
      rcases List.mem_append.1 hf with hf | hf
      · exact hfaults f hf
      · obtain ⟨g, hg, rfl⟩ := List.mem_map.1 hf
        exact string_tangible c (c :: cs) g hg
  | case4 _ _ _ _ _ _ _ _ _ ih => exact ih hfaults
  | case5 => exact hfaults
  | case6 _ _ _ _ _ _ _ _ _ _ _ ih => exact ih hfaults
  | case7 _ _ _ _ _ _ _ _ _ _ ih => exact ih hfaults

theorem attributeGroup_tangible (h : 0 < (attributeGroup cs).length) :
    (attributeGroup cs).Tangible := by
  have hfaults := @attributeFrom_tangible (cs.drop 2) 2 1 0 [] (by simp)
  unfold attributeGroup at h ⊢
  split
  · rename_i heq
    rw [heq] at hfaults
    exact hfaults
  · rename_i heq
    rw [heq] at hfaults h
    intro f hf
    rcases List.mem_append.1 hf with hf | hf
    · exact hfaults f hf
    · obtain rfl := List.mem_singleton.1 hf
      exact h

theorem CodeCut.tangible (h : CodeCut cs cut) (hpos : 0 < cut.length) : cut.Tangible := by
  cases h with
  | attributes => exact attributeGroup_tangible hpos
  | blockComment cs =>
      obtain ⟨kind, length, -, hcut | hcut⟩ := blockComment_form ('/' :: '*' :: cs)
      all_goals rw [hcut] at hpos ⊢
      · exact .clean
      · exact .faulty hpos
  | cast hcast =>
      obtain ⟨length, rfl⟩ := cast?_form hcast
      exact .clean
  | heredoc hdoc =>
      obtain ⟨length, rfl | rfl⟩ := heredoc?_form hdoc
      · exact .clean
      · exact .faulty hpos
  | string => exact string_tangible _ _
  | number =>
      obtain ⟨kind, length, -, hcut⟩ := number_form cs
      rw [hcut]
      exact .clean
  | operator =>
      obtain ⟨kind, length, -, hcut | hcut⟩ := operator_form cs
      all_goals rw [hcut] at hpos ⊢
      · exact .clean
      · exact .faulty hpos
  | lineComment | closeTag | openParen | blank | variableName | name => exact .clean

theorem markup_tangible (cs : List Char) : (markup cs).Tangible := by
  unfold markup
  split
  · unfold openTag
    split
    · exact .clean
    · split <;> exact .clean
  · exact .clean

theorem Mode.cut_tangible {mode : Mode} (h : (mode.cut cs).Fits cs) : (mode.cut cs).Tangible := by
  cases mode with
  | markup => exact markup_tangible cs
  | code => exact (code_cases cs).tangible h.pos

/-! ### Tokens and their cuts -/

/-- The token is what is cut off `rest`, and what is reported at its offset is what is wrong with the
cut. -/
structure IsCutOff (t : Token) (ds : List Diagnostic) (mode : Mode) (rest : List Char) : Prop where
  kind : (mode.cut rest).kind = t.kind
  text : t.text.toList = rest.take (mode.cut rest).length
  faults : ∀ f ∈ (mode.cut rest).faults, f.diagnostic t.pos rest ∈ ds
  reports : ∀ d ∈ ds, d.start = t.pos → ∃ f ∈ (mode.cut rest).faults, d = f.diagnostic t.pos rest

theorem byteLength_take_lt {m n : Nat} (hmn : m < n) (hn : n ≤ cs.length) :
    byteLength (cs.take m) < byteLength (cs.take n) := by
  have hsplit : cs.take n = cs.take m ++ (cs.drop m).take (n - m) := by
    rw [← List.take_add, Nat.add_sub_cancel' (Nat.le_of_lt hmn)]
  have hlength := length_le_byteLength ((cs.drop m).take (n - m))
  rw [List.length_take, List.length_drop] at hlength
  rw [hsplit, byteLength_append]
  omega

/-- The problems of a token start in front of its end. -/
theorem Fault.start_diagnostic_lt (pos : Nat) {mode : Mode} {f : Fault}
    (hfits : (mode.cut cs).Fits cs) (hf : f ∈ (mode.cut cs).faults) :
    (f.diagnostic pos cs).start < pos + byteLength (cs.take (mode.cut cs).length) := by
  have hlength := Mode.cut_tangible hfits f hf
  have hwithin := hfits.faults f hf
  have hlt : byteLength (cs.take f.start) < byteLength (cs.take (mode.cut cs).length) :=
    byteLength_take_lt (by omega) hfits.le
  exact Nat.add_lt_add_left hlt pos

namespace Reads

variable {mode : Mode} {pos : Nat} {ts : List Token} {ds : List Diagnostic}

theorem le_start (h : Reads mode pos cs ts ds) : ∀ d ∈ ds, pos ≤ d.start := by
  induction h with
  | done => simp
  | next _ _ ih =>
      intro d hd
      rcases List.mem_append.1 hd with hd | hd
      · obtain ⟨f, -, rfl⟩ := List.mem_map.1 hd
        exact Nat.le_add_right _ _
      · exact Nat.le_trans (Nat.le_add_right _ _) (ih d hd)

/-- Every token is cut off the text that stands at its offset. -/
theorem exists_isCutOff (h : Reads mode pos cs ts ds) {t : Token} (ht : t ∈ ts) :
    ∃ mode' before rest, cs = before ++ rest ∧ t.pos = pos + byteLength before ∧
      IsCutOff t ds mode' rest := by
  induction h with
  | done => cases ht
  | @next mode pos cs ts ds hfits hrest ih =>
      have hpos : pos < pos + byteLength (cs.take (mode.cut cs).length) := by
        have hlt := byteLength_take_lt hfits.pos hfits.le
        omega
      rcases List.mem_cons.1 ht with rfl | ht
      · refine ⟨mode, [], cs, rfl, rfl, rfl, by simp, fun f hf => ?_, fun d hd hstart => ?_⟩
        · exact List.mem_append_left _ (List.mem_map_of_mem hf)
        · rcases List.mem_append.1 hd with hd | hd
          · obtain ⟨f, hf, rfl⟩ := List.mem_map.1 hd
            exact ⟨f, hf, rfl⟩
          · -- what is reported of later tokens starts behind this one
            have hle := hrest.le_start d hd
            dsimp only at hstart
            omega
      · obtain ⟨mode', before, rest, hcs, htpos, hcut⟩ := ih ht
        refine ⟨mode', cs.take (mode.cut cs).length ++ before, rest, ?_, ?_, hcut.kind, hcut.text,
          fun f hf => List.mem_append_right _ (hcut.faults f hf), fun d hd hstart => ?_⟩
        · rw [List.append_assoc, ← hcs, List.take_append_drop]
        · rw [htpos, byteLength_append, Nat.add_assoc]
        · rcases List.mem_append.1 hd with hd | hd
          · -- what is reported of this token starts in front of the later one
            obtain ⟨f, hf, rfl⟩ := List.mem_map.1 hd
            have hlt := Fault.start_diagnostic_lt pos hfits hf
            omega
          · exact hcut.reports d hd hstart

end Reads

end ArrayShapes.Scan
