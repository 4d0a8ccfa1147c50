import Mathlib.Data.List.Perm.Subperm
import ArrayShapes.Inference.Search
import ArrayShapes.Proofs.Project.Scope
import ArrayShapes.Proofs.Syntax.Variables

/-!
Searches in a body and the way up. A search goes down from a body and stops at inner bodies and at what
it finds. What it finds is told from above as well: by the nodes that are passed on the way up to the
body. For variables the stops at what is found make no difference, since nothing is below a name.
-/

namespace ArrayShapes.Inference

open Syntax

variable {d : Document} {root n v : Node} {p : Node → Bool} {number : Nat} {uri text : String}

/-! ### Found by the way up -/

/-- Strictly below a node, and no phrase of these kinds is strictly between them. -/
structure IsWithin (kinds : List PhraseKind) (root n : Node) : Prop where
  above : root ∈ n.above
  between : ∀ q ∈ n.above, root ∈ q.above → ∀ kind ∈ kinds, q.phraseKind? ≠ some kind

/-- A return statement of the body, and not of one inside it. -/
structure IsReturnOf (root n : Node) : Prop where
  phrase : n.phraseKind? = some .returnStatement
  within : IsWithin [.functionDeclarationBody, .classMemberDeclarationList, .returnStatement] root n

/-- Another variable of the same name in the body that is searched. -/
structure IsOtherUse (v n : Node) : Prop where
  phrase : n.phraseKind? = some .simpleVariable
  other : n ≠ v
  name : ∃ t u, v.childToken? .variableName = some t ∧ n.childToken? .variableName = some u ∧
    u.text = t.text
  within : IsWithin [.functionDeclarationBody, .classMemberDeclarationList] (searchedBody v) n

theorem isInnerBody_eq_false_iff : isInnerBody n = false ↔
    ∀ kind ∈ [PhraseKind.functionDeclarationBody, .classMemberDeclarationList],
      n.phraseKind? ≠ some kind := by
  rw [isInnerBody, Node.isPhraseIn]
  cases n.phraseKind? with
  | none => simp
  | some kind => simp

theorem mem_findInBody_iff (hroot : root ∈ d.root.descendants) :
    n ∈ findInBody p root ↔ n ∈ d.root.descendants ∧ root ∈ n.above ∧
      (∀ q ∈ n.above, root ∈ q.above → isInnerBody q = false ∧ p q = false) ∧
      isInnerBody n = false ∧ p n = true := by
  rw [findInBody, Node.mem_walk_iff hroot]
  simp only [Bool.and_eq_true, Bool.not_eq_true']

theorem mem_returnsOf_iff (hroot : root ∈ d.root.descendants) :
    n ∈ returnsOf root ↔ n ∈ d.root.descendants ∧ IsReturnOf root n := by
  have hisReturn (q : Node) : q.isPhrase .returnStatement = true ↔
      q.phraseKind? = some .returnStatement := by simp [Node.isPhrase]
  rw [returnsOf, mem_findInBody_iff hroot]
  constructor
  · rintro ⟨hn, habove, hbetween, -, hreturn⟩
    refine ⟨hn, (hisReturn n).1 hreturn, habove, fun q hq hqroot => ?_⟩
    obtain ⟨hinner, hother⟩ := hbetween q hq hqroot
    rw [isInnerBody_eq_false_iff] at hinner
    rw [← Bool.not_eq_true, hisReturn] at hother
    simpa [and_assoc] using And.intro hinner hother
  · rintro ⟨hn, hreturn, habove, hbetween⟩
    refine ⟨hn, habove, fun q hq hqroot => ?_, ?_, (hisReturn n).2 hreturn⟩
    · have hkinds := hbetween q hq hqroot
      rw [isInnerBody_eq_false_iff, ← Bool.not_eq_true, hisReturn]
      simpa [and_assoc] using hkinds
    · simp [isInnerBody_eq_false_iff, hreturn]

/-! ### Nodes met once -/

theorem nodup_ids (number : Nat) (uri text : String) :
    ((Document.parse number uri text).root.descendants.map (·.tree.id)).Nodup :=
  (Document.perm_ids number uri text).nodup_iff.2 List.nodup_range

theorem nodup_keys (hroot : root ∈ (Document.parse number uri text).root.descendants) :
    (root.descendants.map Node.key).Nodup := by
  have hids := (nodup_ids number uri text).sublist ((Node.descendants_sublist hroot).map _)
  have hkeys : ((root.descendants.map Node.key).map NodeKey.node).Nodup := by
    rw [List.map_map]
    exact hids
  exact hkeys.of_map

theorem same_iff (hn : n ∈ (Document.parse number uri text).root.descendants)
    (hv : v ∈ (Document.parse number uri text).root.descendants) : n.same v = true ↔ n = v := by
  have hkeys := nodup_keys (Node.self_mem_descendants (Document.parse number uri text).root)
  rw [Node.same, decide_eq_true_eq]
  exact ⟨List.inj_on_of_nodup_map hkeys hn hv, congrArg Node.key⟩

/-- What a walk keeps, where no node is met twice. -/
theorem eq_filter_of_sublist {found all : List Node} {q : Node → Bool} (hall : all.Nodup)
    (hsublist : found.Sublist all) (hmem : ∀ n ∈ all, n ∈ found ↔ q n = true) :
    found = all.filter q := by
  have hfilter : found.filter q = found :=
    List.filter_eq_self.2 fun n hn => (hmem n (hsublist.subset hn)).1 hn
  have hkept : found.Sublist (all.filter q) := hfilter ▸ hsublist.filter q
  have hsubset : all.filter q ⊆ found := by
    intro n hn
    obtain ⟨hn, hq⟩ := List.mem_filter.1 hn
    exact (hmem n hn).2 hq
  exact hkept.eq_of_length_le ((hall.filter q).subperm hsubset).length_le

/-! ### Uses of variables -/

theorem searchedBody_mem (hv : v ∈ d.root.descendants) : searchedBody v ∈ d.root.descendants := by
  rw [searchedBody, Node.ancestor?_eq, Node.ancestors, Node.document_of_mem_descendants hv]
  cases hfind : (v.above.take maxWalk).find?
      (·.isPhraseIn [.functionDeclarationBody, .methodDeclarationBody]) with
  | none => exact Node.self_mem_descendants _
  | some body =>
      have habove := List.mem_of_mem_take (List.mem_of_find?_eq_some hfind)
      exact Node.mem_descendants_of_mem_above hv body habove

/-- The variables of a name. -/
def isUse (name : String) (n : Node) : Bool :=
  n.isPhrase .simpleVariable && (n.childToken? .variableName).any (·.text == name)

theorem isUse_iff {name : String} : isUse name n = true ↔ n.phraseKind? = some .simpleVariable ∧
    ∃ u, n.childToken? .variableName = some u ∧ u.text = name := by
  simp [isUse, Node.isPhrase, Option.any_eq_true]

theorem otherUses_eq {t : Node} (ht : v.childToken? .variableName = some t) :
    otherUses v = ((findInBody (isUse t.text) (searchedBody v)).filter (!·.same v)).filterMap
      (·.childToken? .variableName) := by
  rw [otherUses, ht]
  rfl

theorem otherUses_of_none (h : v.childToken? .variableName = none) : otherUses v = [] := by
  rw [otherUses, h]

/-- On the way up from a variable no other variable is passed that has a name. -/
theorem isUse_of_above {name : String}
    (hn : n ∈ (Document.parse number uri text).root.descendants)
    (hkind : n.phraseKind? = some .simpleVariable) {q : Node} (hq : q ∈ n.above) :
    isUse name q = false := by
  rw [← Bool.not_eq_true, isUse_iff]
  rintro ⟨hvariable, u, hu, -⟩
  have hnone := Node.phraseKind?_of_named hn hvariable (by simp [hu]) hq
  cases hnone.symm.trans hkind

theorem mem_uses_iff {t : Node} (hv : v ∈ (Document.parse number uri text).root.descendants)
    (ht : v.childToken? .variableName = some t) :
    n ∈ (findInBody (isUse t.text) (searchedBody v)).filter (!·.same v) ↔
      n ∈ (Document.parse number uri text).root.descendants ∧ IsOtherUse v n := by
  rw [List.mem_filter, mem_findInBody_iff (searchedBody_mem hv)]
  constructor
  · rintro ⟨⟨hn, habove, hbetween, -, huse⟩, hother⟩
    obtain ⟨hvariable, u, hu, htext⟩ := isUse_iff.1 huse
    refine ⟨hn, hvariable, ?_, ⟨t, u, ht, hu, htext⟩, habove, fun q hq hbody => ?_⟩
    · rintro rfl
      simp [Node.same] at hother
    · exact isInnerBody_eq_false_iff.1 (hbetween q hq hbody).1
  · rintro ⟨hn, hvariable, hother, ⟨t', u, ht', hu, htext⟩, habove, hbetween⟩
    cases ht.symm.trans ht'
    refine ⟨⟨hn, habove, fun q hq hbody => ?_, ?_, isUse_iff.2 ⟨hvariable, u, hu, htext⟩⟩, ?_⟩
    · exact ⟨isInnerBody_eq_false_iff.2 (hbetween q hq hbody), isUse_of_above hn hvariable hq⟩
    · simp [isInnerBody_eq_false_iff, hvariable]
    · rw [Bool.not_eq_true', ← Bool.not_eq_true, same_iff hn hv]
      exact hother

/-- The names come in source order, since nothing is searched below a variable that is found. -/
theorem otherUses_sublist (v : Node) : (otherUses v).Sublist (searchedBody v).descendants := by
  cases ht : v.childToken? .variableName with
  | none =>
      rw [otherUses_of_none ht]
      exact List.nil_sublist _
  | some t =>
      rw [otherUses_eq ht, List.filterMap_eq_flatMap_toList]
      have hnames (ns : List Node) : (ns.flatMap fun n => (n.childToken? .variableName).toList).Sublist
          (ns.flatMap Node.descendants) :=
        .flatMap_right ns fun n _ => Project.childToken?_sublist n _
      have hbelow : ((findInBody (isUse t.text) (searchedBody v)).flatMap Node.descendants).Sublist
          ((searchedBody v).children.flatMap Node.descendants) :=
        Node.walk_flatMap_descendants_sublist (fun n hn => by simp_all) _
      rw [Node.descendants_eq (searchedBody v)]
      exact .cons _ ((hnames _).trans ((List.filter_sublist.flatMap _).trans hbelow))

theorem isToken_of_mem_otherUses {u : Node} (hu : u ∈ otherUses v) :
    u.isToken .variableName = true := by
  cases ht : v.childToken? .variableName with
  | none => simp [otherUses_of_none ht] at hu
  | some t =>
      rw [otherUses_eq ht, List.mem_filterMap] at hu
      obtain ⟨n, -, hu⟩ := hu
      exact (Project.of_childToken? hu).2

/-- Names are met in the order in which they stand in the source. -/
theorem otherUses_pairwise (hv : v ∈ (Document.parse number uri text).root.descendants) :
    (otherUses v).Pairwise fun t u => t.stop ≤ u.pos := by
  have hsublist := (otherUses_sublist v).trans (Node.descendants_sublist (searchedBody_mem hv))
  have hkind (u : Node) (hu : u ∈ otherUses v) : u.tokenKind?.isSome = true := by
    simp [LawfulBEq.eq_of_beq (isToken_of_mem_otherUses hu)]
  apply ((Document.pairwise_tokens number uri text).sublist hsublist).imp_of_mem
  intro t u ht hu hle
  exact hle (hkind t ht) (hkind u hu)

/-! ### Searches as filters -/

section

open Classical

theorem returnsOf_eq_filter (hroot : root ∈ (Document.parse number uri text).root.descendants) :
    returnsOf root = root.descendants.filter fun n => IsReturnOf root n := by
  apply eq_filter_of_sublist (nodup_keys hroot).of_map (Node.walk_sublist _ _ root)
  intro n hn
  rw [decide_eq_true_eq]
  exact (mem_returnsOf_iff hroot).trans (and_iff_right (Node.descendants_trans hroot hn))

theorem otherUses_eq_filterMap (hv : v ∈ (Document.parse number uri text).root.descendants) :
    otherUses v = ((searchedBody v).descendants.filter fun n => IsOtherUse v n).filterMap
      (·.childToken? .variableName) := by
  have hbody := searchedBody_mem hv
  cases ht : v.childToken? .variableName with
  | none =>
      have hnone : (searchedBody v).descendants.filter (fun n => IsOtherUse v n) = [] := by
        rw [List.filter_eq_nil_iff]
        intro n _ huse
        obtain ⟨t, -, ht', -⟩ := (of_decide_eq_true huse).name
        cases ht.symm.trans ht'
      rw [otherUses_of_none ht, hnone, List.filterMap_nil]
  | some t =>
      rw [otherUses_eq ht]
      congr 1
      apply eq_filter_of_sublist (nodup_keys hbody).of_map
        (List.filter_sublist.trans (Node.walk_sublist _ _ (searchedBody v)))
      intro n hn
      rw [decide_eq_true_eq]
      exact (mem_uses_iff hv ht).trans (and_iff_right (Node.descendants_trans hbody hn))

/-- The searches of a body find what the way up tells, in source order. Return statements are those with
no inner body and no other return statement on the way up to the node where the search starts; uses of
a variable are the others of its name with no inner body on the way. A node and all nodes below it are
met once, each before those below it. -/
theorem searches_by_way_up (hn : n ∈ (Document.parse number uri text).root.descendants) :
    returnsOf n = n.descendants.filter (fun m => IsReturnOf n m) ∧
    otherUses n = ((searchedBody n).descendants.filter fun m => IsOtherUse n m).filterMap
      (·.childToken? .variableName) ∧
    (otherUses n).Pairwise (fun t u => t.stop ≤ u.pos) ∧
    n.descendants = n :: n.children.flatMap Node.descendants ∧
    n.descendants.map Node.tree = n.tree.preorder ∧
    (n.descendants.map Node.key).Nodup ∧
    ∀ m, m ∈ n.descendants ↔ m = n ∨
      m ∈ (Document.parse number uri text).root.descendants ∧ n ∈ m.above :=
  ⟨returnsOf_eq_filter hn, otherUses_eq_filterMap hn, otherUses_pairwise hn, Node.descendants_eq n,
    Node.map_tree_descendants n, nodup_keys hn, fun _ => Node.mem_descendants_iff_above hn⟩

/-- The return statement of the closure is not one of the script. -/
theorem searches_by_way_up_closure :
    ∃ v ∈ (Document.parse 0 "a.php" "<?php function()\x7breturn$a;\x7d;return;").root.descendants,
      (v.phraseKind?, (v.childToken? .variableName).map Node.text) =
        (some .simpleVariable, some "$a") ∧
      (returnsOf v.document.root).map Node.pos = [28] ∧
      returnsOf v.document.root =
        v.document.root.descendants.filter (fun m => IsReturnOf v.document.root m) ∧
      otherUses v = ((searchedBody v).descendants.filter fun m => IsOtherUse v m).filterMap
        (·.childToken? .variableName) := by
  have hnode : ((Document.parse 0 "a.php"
      "<?php function()\x7breturn$a;\x7d;return;").root.descendants[17]?).map (fun n =>
        ((n.phraseKind?, (n.childToken? .variableName).map Node.text),
          (returnsOf n.document.root).map Node.pos)) =
      some ((some .simpleVariable, some "$a"), [28]) := by
    decide +kernel
  obtain ⟨v, hv, heq⟩ := Option.map_eq_some_iff.1 hnode
  obtain ⟨hvariable, hreturns⟩ := Prod.mk.inj heq
  have hv := List.mem_of_getElem? hv
  have hroot := Node.self_mem_descendants
    (Document.parse 0 "a.php" "<?php function()\x7breturn$a;\x7d;return;").root
  refine ⟨v, hv, hvariable, hreturns, ?_, (searches_by_way_up hv).2.1⟩
  rw [Node.document_of_mem_descendants hv]
  exact (searches_by_way_up hroot).1

end

end ArrayShapes.Inference
