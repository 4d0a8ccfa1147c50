import ArrayShapes.Completion.Provider
import ArrayShapes.Proofs.Completion.Listing

/-!
Where a caret is decides what is proposed: at most one provider has something to say, and what it
says is all that is listed.
-/

namespace ArrayShapes.Completion

open Syntax Project Inference

/-! ### Places of a caret -/

/-- The places where something is proposed. -/
inductive Context where
  /-- A key of a subscripted array. -/
  | subscript (array : Node)
  /-- The key or the value of an element of an array literal. -/
  | element (literal : Node)
  /-- A string that is compared with operands. -/
  | comparison (operands : List Node)
  /-- The start of a tag in a doc comment. -/
  | tag

namespace Context

def kind : Context → ItemKind
  | subscript _ | element _ => .field
  | comparison _ => .value
  | tag => .keyword

/-- The keys that are found for a place, in the order in which they are, each as often as it is. -/
def found (store : Store) (indices : Nat) : Context → Guarded (List Shape.Candidate)
  | subscript array => return (← resolve store array).flatMap (·.candidates indices)
  | element literal => return (expectedShapes store literal).flatMap (·.candidates indices)
  | comparison operands => do
    let shapes ← (Inquiry.shapesOfAll operands).run (resolve store)
    return ((shapes.flatMap Shape.alternatives).filterMap Shape.str?).map (⟨·, defaultDetail⟩)
  | tag => return customTags.map (⟨·, defaultDetail⟩)

/-- Items of one provider, and none of the others. -/
def only (items : List Item) : Context → List (List Item)
  | subscript _ => [items, [], [], []]
  | element _ => [[], items, [], []]
  | comparison _ => [[], [], items, []]
  | tag => [[], [], [], items]

end Context

/-- The kind of the phrase right above a token. -/
def parentKind? (token : Node) : Option PhraseKind := token.parent?.bind Node.phraseKind?

namespace Request

/-- Where the caret of a request is. -/
def context? (r : Request) : Option Context :=
  match r.token.tokenKind? with
  | some .openBracket => (subscripted? r.token).map .subscript
  | some .stringLiteral =>
    match parentKind? r.token with
    | some .subscriptExpression => (subscripted? r.token).map .subscript
    | some .arrayKey | some .arrayValue => (literalOf? r.token).map .element
    | some .equalityExpression => some (.comparison (comparedWith r.token))
    | _ => none
  | some .documentComment =>
    if (textBefore? r).any (·.toList.getLast? == some '@') then some .tag else none
  | _ => none

/-- A key as it is written at the caret: after a bracket it takes quotes, unless it is a number. -/
def write (r : Request) (key : String) : String :=
  if !r.token.isToken .openBracket || isNumeric key then key else "'" ++ key ++ "'"

/-- Keys as they are listed for a request. -/
def listing (r : Request) (kind : ItemKind) (found : List Shape.Candidate) : List Item :=
  ranked kind ((firstOfEach (·.label) found).map fun key => (r.write key.label, key.detail))

end Request

theorem parentKind?_of_subscripted? {token array : Node} (h : subscripted? token = some array) :
    parentKind? token = some .subscriptExpression := by
  obtain ⟨parent, hparent, h⟩ := Option.bind_eq_some_iff.1 h
  rw [parentKind?, hparent, Option.bind_some]
  by_cases hkind : parent.isPhrase .subscriptExpression
  · simpa [Node.isPhrase] using hkind
  · simp [hkind] at h

theorem head?_above (n : Node) : n.above.head? = n.parent? := by
  rw [Node.above, Node.parent?]
  cases n.place <;> rfl

theorem parentKind?_of_literalOf? {token literal : Node} (h : literalOf? token = some literal) :
    parentKind? token = some .arrayKey ∨ parentKind? token = some .arrayValue := by
  rw [literalOf?] at h
  split at h
  case h_1 part element list array above habove =>
    have hparent : token.parent? = some part := by rw [← head?_above, habove, List.head?_cons]
    have hpart : part.isPhraseIn [.arrayKey, .arrayValue] = true := by
      by_contra hpart
      simp [hpart] at h
    rw [parentKind?, hparent, Option.bind_some]
    obtain ⟨kind, hkind, rfl | rfl⟩ : ∃ kind, part.phraseKind? = some kind ∧
        (kind = .arrayKey ∨ kind = .arrayValue) := by
      simpa [Node.isPhraseIn, Option.any_eq_true] using hpart
    · exact .inl hkind
    · exact .inr hkind
  case h_2 => cases h

theorem comparedWith_eq_nil {token : Node} (h : parentKind? token ≠ some .equalityExpression) :
    comparedWith token = [] := by
  rw [comparedWith]
  cases hparent : token.parent? with
  | none => rfl
  | some parent =>
      have hkind : parent.isPhrase .equalityExpression = false := by
        simpa [parentKind?, hparent, Node.isPhrase] using h
      simp [hkind]

section Context

variable {r : Request}

theorem context?_eq_subscript_iff {array : Node} :
    r.context? = some (.subscript array) ↔
      (r.token.tokenKind? = some .stringLiteral ∨ r.token.tokenKind? = some .openBracket) ∧
        subscripted? r.token = some array := by
  rw [Request.context?]
  split
  case h_1 htoken => simp [htoken]
  case h_2 htoken =>
    simp only [htoken, true_or, true_and]
    constructor
    · intro h
      split at h
      case h_1 => simpa using h
      all_goals simp at h
    · intro h
      simp [parentKind?_of_subscripted? h, h]
  case h_3 htoken => simp [htoken]
  case h_4 hbracket hstring _ =>
    exact iff_of_false nofun fun ⟨htoken, _⟩ => htoken.elim hstring hbracket

theorem context?_eq_element_iff {literal : Node} :
    r.context? = some (.element literal) ↔
      r.token.tokenKind? = some .stringLiteral ∧ literalOf? r.token = some literal := by
  rw [Request.context?]
  split
  case h_1 htoken => simp [htoken]
  case h_2 htoken =>
    simp only [htoken, true_and]
    constructor
    · intro h
      split at h
      case h_2 | h_3 => simpa using h
      all_goals simp at h
    · intro h
      rcases parentKind?_of_literalOf? h with hkind | hkind <;> simp [hkind, h]
  case h_3 htoken => simp [htoken]
  case h_4 hstring _ => exact iff_of_false nofun fun ⟨htoken, _⟩ => hstring htoken

theorem context?_eq_comparison_iff {operands : List Node} :
    r.context? = some (.comparison operands) ↔
      r.token.tokenKind? = some .stringLiteral ∧
        parentKind? r.token = some .equalityExpression ∧ comparedWith r.token = operands := by
  rw [Request.context?]
  split
  case h_1 htoken => simp [htoken]
  case h_2 htoken =>
    simp only [htoken, true_and]
    split
    case h_4 hkind => simp [hkind]
    case h_5 hkind => exact iff_of_false nofun fun ⟨hequality, _⟩ => hkind hequality
    all_goals rename_i hkind; simp [hkind]
  case h_3 htoken => simp [htoken]
  case h_4 hstring _ => exact iff_of_false nofun fun ⟨htoken, _⟩ => hstring htoken

theorem context?_eq_tag_iff :
    r.context? = some .tag ↔ r.token.tokenKind? = some .documentComment ∧
      (textBefore? r).any (·.toList.getLast? == some '@') = true := by
  rw [Request.context?]
  split
  case h_1 htoken => simp [htoken]
  case h_2 htoken =>
    simp only [htoken]
    split <;> simp
  case h_3 htoken => simp [htoken]
  case h_4 hcomment => exact iff_of_false nofun fun ⟨htoken, _⟩ => hcomment htoken

end Context

/-! ### The providers -/

section Providers

variable (store : Store) (r : Request)

theorem subscriptItems_eq : subscriptItems store r =
    match r.context? with
    | some (.subscript array) =>
      r.listing .field <$> (Context.subscript array).found store r.indices
    | _ => return [] := by
  split
  case h_1 array hcontext =>
    obtain ⟨htoken | htoken, harray⟩ := context?_eq_subscript_iff.1 hcontext <;>
      simp [subscriptItems, keyItems, Request.listing, Request.write, Context.found, Node.isToken,
        htoken, harray]
  case h_2 hcontext =>
    cases harray : subscripted? r.token with
    | none => simp [subscriptItems, harray]
    | some array =>
      have htoken := fun htoken => hcontext array (context?_eq_subscript_iff.2 ⟨htoken, harray⟩)
      simp [subscriptItems, Node.isToken, not_or.1 htoken]

theorem literalItems_eq : literalItems store r =
    match r.context? with
    | some (.element literal) =>
      r.listing .field ((expectedShapes store literal).flatMap (·.candidates r.indices))
    | _ => [] := by
  split
  case h_1 literal hcontext =>
    obtain ⟨htoken, hliteral⟩ := context?_eq_element_iff.1 hcontext
    simp [literalItems, keyItems, Request.listing, Request.write, Node.isToken, htoken, hliteral]
  case h_2 hcontext =>
    cases hliteral : literalOf? r.token with
    | none => simp [literalItems, hliteral]
    | some literal =>
      have htoken : r.token.tokenKind? ≠ some .stringLiteral := fun htoken =>
        hcontext literal (context?_eq_element_iff.2 ⟨htoken, hliteral⟩)
      simp [literalItems, Node.isToken, htoken]

theorem valueItems_eq : valueItems store r =
    match r.context? with
    | some (.comparison operands) =>
      r.listing .value <$> (Context.comparison operands).found store r.indices
    | _ => return [] := by
  split
  case h_1 operands hcontext =>
    obtain ⟨htoken, -, hoperands⟩ := context?_eq_comparison_iff.1 hcontext
    simp [valueItems, Request.listing, Request.write, Context.found, Node.isToken, htoken,
      hoperands, firstOfEach_map]
    rfl
  case h_2 hcontext =>
    by_cases htoken : r.token.tokenKind? = some .stringLiteral
    · have hkind : parentKind? r.token ≠ some .equalityExpression := fun hkind =>
        hcontext _ (context?_eq_comparison_iff.2 ⟨htoken, hkind, rfl⟩)
      have hnone : (Inquiry.shapesOfAll []).run (resolve store) = pure [] := rfl
      simp [valueItems, Node.isToken, htoken, comparedWith_eq_nil hkind, hnone, firstOfEach, ranked]
    · simp [valueItems, Node.isToken, htoken]

theorem tagItems_eq : tagItems r =
    match r.context? with
    | some .tag => r.listing .keyword (customTags.map (⟨·, defaultDetail⟩))
    | _ => [] := by
  split
  case h_1 hcontext =>
    obtain ⟨htoken, hsign⟩ := context?_eq_tag_iff.1 hcontext
    have hdistinct : ((customTags.map (Shape.Candidate.mk · defaultDetail)).map (·.label)).Nodup := by
      decide
    simp [tagItems, Request.listing, Request.write, Node.isToken, htoken, hsign,
      firstOfEach_eq_self hdistinct, Function.comp_def]
  case h_2 hcontext =>
    rw [tagItems, if_neg]
    simpa [context?_eq_tag_iff, Node.isToken] using hcontext

/-- What each provider proposes, in the order in which they are asked under one guard. -/
def contributions : Guarded (List (List Item)) := do
  let keys ← subscriptItems store r
  let values ← valueItems store r
  return [keys, literalItems store r, values, tagItems r]

theorem run_items (g : Guard NodeKey) :
    ((items store r).run g).1 = ((contributions store r).run g).1.flatten := by
  have hitems : items store r = List.flatten <$> contributions store r := by
    simp [items, contributions]
  rw [hitems]
  rfl

/-- Only the provider for the place of the caret has something to say. -/
theorem run_contributions (g : Guard NodeKey) : ((contributions store r).run g).1 =
    match r.context? with
    | some c => c.only (r.listing c.kind ((c.found store r.indices).run g).1)
    | none => [[], [], [], []] := by
  rw [contributions, subscriptItems_eq, literalItems_eq, valueItems_eq, tagItems_eq]
  cases r.context? with
  | none => rfl
  | some c => cases c <;> rfl

end Providers

/-! ### The proposals -/

section Proposals

theorem isNumeric_quoted (key : String) : isNumeric ("'" ++ key ++ "'") = false := by
  simp [isNumeric, Text.isAsciiDigit]

/-- A key with quotes is no number, so keys that differ are written differently. -/
theorem write_injective (r : Request) : Function.Injective r.write := by
  have hne (a b : String) (ha : (!r.token.isToken .openBracket || isNumeric a) = true)
      (hb : ¬(!r.token.isToken .openBracket || isNumeric b) = true) : a ≠ "'" ++ b ++ "'" := by
    rintro rfl
    simp_all [isNumeric_quoted]
  intro a b h
  rw [Request.write, Request.write] at h
  split at h <;> split at h
  case isTrue.isTrue => exact h
  case isTrue.isFalse ha hb => exact absurd h (hne a b ha hb)
  case isFalse.isTrue ha hb => exact absurd h.symm (hne b a hb ha)
  case isFalse.isFalse => simpa using h

variable (r : Request) (kind : ItemKind) (found : List Shape.Candidate)

theorem map_listing : (r.listing kind found).map (fun item => (item.label, item.detail)) =
    (firstOccurrences (·.label) found).map fun key => (r.write key.label, key.detail) := by
  rw [Request.listing, map_ranked, firstOfEach_eq_firstOccurrences]

theorem nodup_listing : ((r.listing kind found).map (·.label)).Nodup := by
  have hlabels : (r.listing kind found).map (·.label) =
      ((firstOfEach (·.label) found).map (·.label)).map r.write := by
    have hfst := congrArg (List.map Prod.fst) (map_listing r kind found)
    simpa [firstOfEach_eq_firstOccurrences, Function.comp_def] using hfst
  rw [hlabels]
  exact (nodup_map_firstOfEach _ found).map (write_injective r)

theorem isRanked_listing : IsRanked (r.listing kind found) := isRanked_ranked kind _

end Proposals

/-- The keys that are found for a request. -/
def Request.found (store : Store) (r : Request) : Guarded (List Shape.Candidate) :=
  match r.context? with
  | some c => c.found store r.indices
  | none => return []

theorem pairwise_contributions (store : Store) (r : Request) (g : Guard NodeKey) :
    ((contributions store r).run g).1.Pairwise fun a b => a = [] ∨ b = [] := by
  rw [run_contributions]
  cases r.context? with
  | none => simp
  | some c => cases c <;> simp [Context.only]

theorem exists_items_eq_listing (store : Store) (r : Request) (g : Guard NodeKey) :
    ∃ kind, ((items store r).run g).1 = r.listing kind ((r.found store).run g).1 := by
  rw [run_items, run_contributions, Request.found]
  cases r.context? with
  | none =>
      have hnone : r.listing .field [] = [] := by simp [Request.listing, firstOfEach, ranked]
      exact ⟨.field, hnone.symm⟩
  | some c => exact ⟨c.kind, by cases c <;> simp [Context.only]⟩

/-- The proposals at an offset are those of one provider. They are the keys that are found there,
each once, where it occurs first and as it is written there; no two are written alike. Each carries
its rank, and by the texts of the ranks any list of them is sorted into this order, if there are not
more than there are ranks. -/
theorem complete_consistent (store : Store) (uri : String) (offset indices : Nat) :
    let proposals := complete store uri offset indices
    (store.locate? uri offset = none → proposals = []) ∧
    (∀ token, store.locate? uri offset = some token →
      let r : Request := { token, offset, indices }
      let lists := ((contributions store r).run (.ofLimits .expression)).1
      let found := ((r.found store).run (.ofLimits .expression)).1
      proposals = lists.flatten ∧
      lists.Pairwise (fun a b => a = [] ∨ b = []) ∧
      proposals.map (fun item => (item.label, item.detail)) =
        (firstOccurrences (·.label) found).map fun key => (r.write key.label, key.detail)) ∧
    (proposals.map (·.label)).Nodup ∧
    (∀ i item, proposals[i]? = some item → item.sortText = sortText i) ∧
    (proposals.length ≤ 10 ^ 7 → ∀ shuffled : List Item, shuffled.Perm proposals →
      shuffled.mergeSort (fun a b => a.sortText ≤ b.sortText) = proposals) := by
  intro proposals
  cases hlocate : store.locate? uri offset with
  | none =>
      have hnone : proposals = [] := by simp [proposals, complete, hlocate]
      simp [hnone]
  | some token =>
      let r : Request := { token, offset, indices }
      have hitems : proposals = ((items store r).run (.ofLimits .expression)).1 := by
        simp [proposals, complete, hlocate, r]
      obtain ⟨kind, hlisting⟩ := exists_items_eq_listing store r (.ofLimits .expression)
      rw [← hitems] at hlisting
      have hranked : IsRanked proposals := hlisting ▸ isRanked_listing r kind _
      refine ⟨nofun, ?_, ?_, hranked, fun hlength _ => hranked.mergeSort_eq hlength⟩
      · rintro _ ⟨⟩
        refine ⟨?_, pairwise_contributions store r _, hlisting ▸ map_listing r kind _⟩
        rw [hitems, run_items]
      · exact hlisting ▸ nodup_listing r kind _

end ArrayShapes.Completion
