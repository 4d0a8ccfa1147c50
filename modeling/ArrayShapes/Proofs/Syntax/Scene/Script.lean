import ArrayShapes.Proofs.Syntax.Scene.Statement
import ArrayShapes.Syntax.Grammar

/-!
What is seen of a source at its start settles its tree, but for blank text and positions.
-/

namespace ArrayShapes.Syntax

open ArrayShapes.Syntax.Parser Builder

namespace Grammar

/-- Induction on the fuel: the rules are settled if those that they refer to are. -/
theorem run_rulesSettled (fuel : Nat) : RulesSettled (run fuel) := by
  induction fuel with
  | zero =>
      have hoperand {rule : Rule} : Operand (run 0 rule) := fun _ => Settles.failure
      have hsettled {rule : Rule} : Settled fun _ => run 0 rule := fun _ => .failure
      exact ⟨hoperand, hoperand, fun _ => hoperand, hoperand, hoperand, hsettled, hsettled, .failure⟩
  | succ fuel ih =>
      have hstatement := statement_starts ih
      exact {
        expression := expression_operand ih
        assignment := assignment_operand ih
        binary := fun _ => binary_operand ih
        unary := unary_operand ih
        simpleVariable := simpleVariable_operand ih
        typeDeclaration := typeDeclaration_settled ih
        statement := hstatement.settled
        statement_waits := hstatement.waits }

theorem script_operand : Operand script := by
  have hflush : Settled fun _ => (modify Builder.flush : Parser Unit) := fun σ =>
    .inr ⟨(), [], σ, fun _ b hb => ⟨b.flush, rfl, .flush b, hb.flush⟩, trivial⟩
  refine .mark_bind fun b => Wraps.get_bind (fun b => .after ?_ fun _ => ?_) (fun _ _ => rfl) _
  · exact (statementList_operand (run_rulesSettled _) fun _ => rfl).settled
  · exact .after hflush fun _ => .finish rfl

end Grammar

/-! ### The start of a source -/

namespace Lexeme

theorem Tidy.bare_eq {l : Lexeme} (h : l.Tidy) : l.bare = make [] { l.token with pos := 0 } := by
  simp [bare, make, h.word]

theorem group_tidy (held : List Token) (done : List Lexeme) (ts : List Token)
    (hheld : ∀ t ∈ held, t.isTrivia = true) (hdone : ∀ l ∈ done, l.Tidy) :
    (∀ l ∈ (group held done ts).1, l.Tidy) ∧ ∀ t ∈ (group held done ts).2, t.isTrivia = true := by
  fun_induction group held done ts with
  | case1 held done => simpa using ⟨hdone, hheld⟩
  | case2 held done t ts htrivia ih =>
      refine ih ?_ hdone
      simpa using ⟨htrivia, hheld⟩
  | case3 held done t ts htrivia ih =>
      refine ih (by simp) ?_
      have htoken : t.isTrivia = false := Bool.eq_false_iff.2 htrivia
      have hmake : (make held.reverse t).Tidy := ⟨by simpa [make] using hheld, htoken, rfl⟩
      simpa using ⟨hmake, hdone⟩

theorem token_group (held : List Token) (done : List Lexeme) (ts : List Token) :
    (group held done ts).1.map token = done.reverse.map token ++ ts.filter (!·.isTrivia) := by
  fun_induction group held done ts with
  | case1 held done => simp
  | case2 held done t ts htrivia ih => simpa [htrivia] using ih
  | case3 held done t ts htrivia ih => simpa [htrivia, make] using ih

end Lexeme

namespace Builder

theorem tidy_ofTokens (tokens : List Token) (sourceEnd : Nat) : (ofTokens tokens sourceEnd).Tidy := by
  obtain ⟨hahead, htrailing⟩ := Lexeme.group_tidy [] [] tokens (by simp) (by simp)
  exact ⟨hahead, htrailing⟩

theorem shows_ofTokens (tokens : List Token) (sourceEnd : Nat) :
    Shows 0 (ofTokens tokens sourceEnd) ⟨(ofTokens tokens sourceEnd).sight, []⟩ :=
  ⟨tidy_ofTokens tokens sourceEnd, Nat.zero_le _, rfl, rfl⟩

theorem token_ahead_ofTokens (tokens : List Token) (sourceEnd : Nat) :
    (ofTokens tokens sourceEnd).ahead.map Lexeme.token = tokens.filter (!·.isTrivia) :=
  Lexeme.token_group [] [] tokens

/-- Only the tokens that are not blank are seen, and their kinds and texts. -/
theorem sight_ofTokens_eq {tokens tokens' : List Token}
    (h : (tokens.filter (!·.isTrivia)).map (fun t => (t.kind, t.text)) =
      (tokens'.filter (!·.isTrivia)).map fun t => (t.kind, t.text)) (sourceEnd sourceEnd' : Nat) :
    (ofTokens tokens sourceEnd).sight = (ofTokens tokens' sourceEnd').sight := by
  have hbare (tokens : List Token) (sourceEnd : Nat) :
      (ofTokens tokens sourceEnd).ahead.map Lexeme.bare =
        ((tokens.filter (!·.isTrivia)).map fun t => (t.kind, t.text)).map
          fun r => Lexeme.make [] ⟨r.1, 0, r.2⟩ := by
    rw [← token_ahead_ofTokens tokens sourceEnd, List.map_map, List.map_map]
    exact List.map_congr_left fun l hl => ((tidy_ofTokens tokens sourceEnd).ahead l hl).bare_eq
  have hahead := (hbare tokens sourceEnd).trans ((congrArg _ h).trans (hbare tokens' sourceEnd').symm)
  have hleft := congrArg List.length hahead
  simp only [List.length_map] at hleft
  simp only [sight, hahead]
  simpa [ofTokens] using hleft

/-- Where there is a result, all sources that look the same have one. The same problems are found in
all of them, and their trees have the same sketch. -/
theorem parse_settled {tokens : List Token} {sourceEnd : Nat} {b : Builder}
    (h : Builder.parse tokens sourceEnd = some b) :
    ∃ found o, ∀ tokens' sourceEnd',
      (ofTokens tokens' sourceEnd').sight = (ofTokens tokens sourceEnd).sight →
        ∃ b', Builder.parse tokens' sourceEnd' = some b' ∧
          Grows 0 found (ofTokens tokens' sourceEnd') b' ∧ b'.nodes 0 = [o] := by
  obtain ⟨⟨u, b₁⟩, hscript, rfl⟩ := Option.map_eq_some_iff.1 h
  rcases Grammar.script_operand ⟨(ofTokens tokens sourceEnd).sight, []⟩ with
    hfails | ⟨u', found, σ', hleads, cs, hnodes, hfilled⟩
  · have hnone := hfails 0 _ (shows_ofTokens tokens sourceEnd)
    cases hscript.symm.trans hnone
  · obtain ⟨o, rfl, -⟩ := Slot.exists_eq_singleton_of_filledBy_one hfilled
    refine ⟨found, o, fun tokens' sourceEnd' hsight => ?_⟩
    have hshows := shows_ofTokens tokens' sourceEnd'
    rw [hsight] at hshows
    obtain ⟨b', heq, hgrows, hb'⟩ := hleads 0 _ hshows
    exact ⟨b', Option.map_eq_some_iff.2 ⟨_, heq, rfl⟩, hgrows, hb'.nodes_eq.trans hnodes⟩

theorem parse_grows {tokens : List Token} {sourceEnd : Nat} {b : Builder}
    (h : Builder.parse tokens sourceEnd = some b) :
    ∃ found, Grows 0 found (ofTokens tokens sourceEnd) b := by
  obtain ⟨found, o, hsettled⟩ := parse_settled h
  obtain ⟨b', hparse, hgrows, -⟩ := hsettled tokens sourceEnd rfl
  cases h.symm.trans hparse
  exact ⟨found, hgrows⟩

end Builder

/-- The tree of a document is the one node that its builder has left, and the builder has placed all
tokens. -/
theorem Document.exists_builder (number : Nat) (uri text : String) :
    ∃ b, Builder.parse (scan text).tokens.toList text.utf8ByteSize = some b ∧
      b.pending.toList = [(Document.parse number uri text).tree] ∧
      b.Lossless (scan text).tokens.toList ∧ b.unplaced = [] ∧
      (Document.parse number uri text).arena = b.arena ∧
      ∃ id children, (Document.parse number uri text).tree =
        .phrase id .script 0 text.utf8ByteSize children := by
  have hreads := Scan.scan_reads text
  obtain ⟨b, id, children, hparse, hahead, htrailing, hroot, hlossless⟩ :=
    parse_result (by simpa [Text.byteLength_toList] using hreads.tiles) hreads.head_not_isTrivia
  have htree : (Document.parse number uri text).tree =
      .phrase id .script 0 text.utf8ByteSize children := by
    simp [Document.parse, hparse, Builder.root, ← Array.getElem?_toList, hroot]
  have harena : (Document.parse number uri text).arena = b.arena := by simp [Document.parse, hparse]
  exact ⟨b, hparse, by rw [hroot, htree], hlossless, by simp [Builder.unplaced, hahead, htrailing],
    harena, id, children, htree⟩

/-- The tokens of the tree are those of the scan. -/
theorem Document.tokens_tree (number : Nat) (uri text : String) :
    (Document.parse number uri text).tree.tokens = (scan text).tokens.toList := by
  obtain ⟨b, -, hpending, hlossless, hunplaced, -⟩ := Document.exists_builder number uri text
  have htokens := hlossless.tokens_eq
  rw [hpending, hunplaced] at htokens
  simpa [Tree.tokensList] using htokens

end ArrayShapes.Syntax
