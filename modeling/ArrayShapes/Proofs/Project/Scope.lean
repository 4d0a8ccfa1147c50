import ArrayShapes.Proofs.Project.History
import ArrayShapes.Proofs.Syntax.Reach

/-!
Variables and where they are declared. The scope of a variable is found by going up, and the
variables of a scope by going down. Both ways pass the same nodes, so each variable is among those of
its scope, and all of one name in a scope have one declaration: the first parameter of the name, or
else the first of them.
-/

namespace ArrayShapes.Project

open Syntax

variable {d : Document} {n s p c u v : Node} {name : String} {history : List (String × String)}

/-! ### Nodes by their keys -/

/-- A document stands where its number says. -/
theorem Store.getElem?_documents_iff {i : Nat} :
    (ofSources history).documents[i]? = some d ↔ d ∈ (ofSources history).documents ∧ d.number = i := by
  have hnumber {j : Nat} (h : (ofSources history).documents[j]? = some d) : d.number = j := by
    rw [documents_ofSources, List.getElem?_mapIdx] at h
    obtain ⟨f, -, rfl⟩ := Option.map_eq_some_iff.1 h
    rfl
  constructor
  · intro h
    exact ⟨List.mem_of_getElem? h, hnumber h⟩
  · rintro ⟨hd, rfl⟩
    obtain ⟨j, hj⟩ := List.mem_iff_getElem?.1 hd
    rwa [hnumber hj]

theorem Store.exists_parse_of_mem (hd : d ∈ (ofSources history).documents) :
    ∃ number uri text, d = Document.parse number uri text := by
  rw [documents_ofSources, List.mem_mapIdx] at hd
  obtain ⟨i, hi, rfl⟩ := hd
  exact ⟨_, _, _, rfl⟩

/-- A key finds the node that has it, and keys of other stores find nothing. -/
theorem Store.node?_eq_some_iff {key : NodeKey} :
    (ofSources history).node? key = some n ↔
      (∃ d ∈ (ofSources history).documents, n ∈ d.root.descendants) ∧ n.key = key := by
  have hkey {d : Document} (hd : d ∈ (ofSources history).documents) (id : Nat) :
      d.node? id = some n ↔ n ∈ d.root.descendants ∧ n.key = ⟨d.number, id⟩ := by
    obtain ⟨number, uri, text, rfl⟩ := exists_parse_of_mem hd
    rw [Document.node?_eq_some_iff]
    refine and_congr_right fun hn => ?_
    rw [Node.key, Node.document_of_mem_descendants hn, NodeKey.mk.injEq]
    exact (and_iff_right rfl).symm
  simp only [node?, Option.bind_eq_some_iff, getElem?_documents_iff]
  constructor
  · rintro ⟨d, ⟨hd, hnumber⟩, hn⟩
    obtain ⟨hn, heq⟩ := (hkey hd _).1 hn
    exact ⟨⟨d, hd, hn⟩, by rw [heq, hnumber]⟩
  · rintro ⟨⟨d, hd, hn⟩, rfl⟩
    have hnumber : n.key.document = d.number := by
      rw [Node.key, Node.document_of_mem_descendants hn]
      rfl
    exact ⟨d, ⟨hd, hnumber.symm⟩, (hkey hd _).2 ⟨hn, by rw [← hnumber]⟩⟩

/-! ### The scope of a variable -/

/-- No node of the document is further down than a walk goes up. -/
def IsShallow (d : Document) : Prop := ∀ n ∈ d.root.descendants, n.above.length ≤ maxWalk

theorem IsShallow.child (h : IsShallow d) (hp : p ∈ d.root.descendants) (hc : c ∈ p.children) :
    c.above.length ≤ maxWalk :=
  h c (Node.descendants_trans hp (Node.mem_descendants_of_mem_children hc))

/-- The innermost function around a node, or the whole document if there is none. -/
structure IsScopeOf (d : Document) (s n : Node) : Prop where
  above : s ∈ n.above
  innermost : ∀ p ∈ n.above, s ∈ p.above → isScope p = false
  scope : isScope s = true ∨ s = d.root

theorem scopeOf_eq (h : n.above.length ≤ maxWalk) :
    scopeOf n = (n.above.find? isScope).getD n.document.root := by
  rw [scopeOf, Node.ancestor?_eq, Node.ancestors, List.take_of_length_le h]

theorem scopeOf_root (d : Document) : scopeOf d.root = d.root :=
  scopeOf_eq (n := d.root) (Nat.zero_le _)

/-- One step further down the scope is another one only below a function. -/
theorem scopeOf_of_mem_children (h : c.above.length ≤ maxWalk) (hc : c ∈ p.children) :
    scopeOf c = if isScope p then p else scopeOf p := by
  have hp : p.above.length ≤ maxWalk := by
    rw [Node.above_of_mem_children hc, List.length_cons] at h
    omega
  rw [scopeOf_eq h, scopeOf_eq hp, Node.above_of_mem_children hc, Node.document_of_mem_children hc,
    List.find?_cons]
  cases isScope p <;> rfl

theorem isScopeOf_parent_iff (hp : p ∈ d.root.descendants) (hc : c ∈ p.children) :
    IsScopeOf d p c ↔ isScope p = true ∨ p = d.root := by
  refine ⟨IsScopeOf.scope, fun hscope => ⟨by simp [Node.above_of_mem_children hc], ?_, hscope⟩⟩
  exact fun q hq hpq => absurd hpq (Node.not_mem_above_of_mem_children hp hc q hq)

theorem isScopeOf_child_iff (hc : c ∈ p.children) (hne : s ≠ p) :
    IsScopeOf d s c ↔ isScope p = false ∧ IsScopeOf d s p := by
  have habove := Node.above_of_mem_children hc
  constructor
  · rintro ⟨hs, hinner, hscope⟩
    rw [habove] at hs hinner
    have hs : s ∈ p.above := (List.mem_cons.1 hs).resolve_left hne
    exact ⟨hinner p List.mem_cons_self hs,
      hs, fun q hq => hinner q (List.mem_cons_of_mem p hq), hscope⟩
  · rintro ⟨hp, hs, hinner, hscope⟩
    refine ⟨by simp [habove, hs], fun q hq hsq => ?_, hscope⟩
    rw [habove] at hq
    rcases List.mem_cons.1 hq with rfl | hq
    · exact hp
    · exact hinner q hq hsq

/-- Going up from a node leads to its scope. -/
theorem scopeOf_eq_iff (hshallow : IsShallow d) (hn : n ∈ d.root.descendants) (hne : n ≠ d.root) :
    scopeOf n = s ↔ IsScopeOf d s n := by
  revert n
  apply Node.descendants_induction
  · exact fun hne => absurd rfl hne
  · intro p hp ih c hc _
    rw [scopeOf_of_mem_children (hshallow.child hp hc) hc]
    by_cases hs : s = p
    · subst hs
      rw [isScopeOf_parent_iff hp hc]
      by_cases hscope : isScope s = true
      · simp [hscope]
      · rw [if_neg hscope, or_iff_right hscope]
        refine ⟨fun hself => ?_, fun hroot => hroot ▸ scopeOf_root d⟩
        by_contra hroot
        have habove := ((ih hroot).1 hself).above
        exact Node.not_mem_above hp habove habove
    · rw [isScopeOf_child_iff hc hs]
      by_cases hscope : isScope p = true
      · simp [hscope, Ne.symm hs]
      · rw [if_neg hscope, and_iff_right (Bool.not_eq_true _ ▸ hscope)]
        by_cases hroot : p = d.root
        · subst hroot
          rw [scopeOf_root]
          exact iff_of_false (Ne.symm hs) fun h => nomatch h.above
        · exact ih hroot

/-! ### The variables of a scope -/

/-- A variable of a name in a scope, and not the name of a property in the body of a class. -/
structure IsVariableOf (d : Document) (s : Node) (name : String) (u : Node) : Prop where
  mem : u ∈ d.root.descendants
  token : u.isToken .variableName = true
  scope : scopeOf u = s
  outside : ∀ p ∈ u.above, s ∈ p.above → isClassLike p = false
  text : u.text = name

/-- A parameter of a name in the header of a function. -/
def IsParameterOf (s : Node) (name : String) (u : Node) : Prop :=
  ∃ header list parameter,
    s.childOf? [.functionDeclarationHeader, .methodDeclarationHeader, .anonymousFunctionHeader,
      .arrowFunctionHeader] = some header ∧
    header.childOf? [.parameterDeclarationList] = some list ∧
    parameter ∈ list.children ∧ parameter.isPhrase .parameterDeclaration = true ∧
    parameter.childToken? .variableName = some u ∧ u.text = name

/-- The first of some tokens in the source. -/
def IsFirst (P : Node → Prop) (v : Node) : Prop := P v ∧ ∀ u, P u → u = v ∨ v.stop ≤ u.pos

theorem isToken_root (number : Nat) (uri text : String) (kind : TokenKind) :
    (Document.parse number uri text).root.isToken kind = false := by
  obtain ⟨_, -, -, -, -, -, _, _, htree⟩ := Document.exists_builder number uri text
  simp [Document.root, Node.isToken, Node.tokenKind?, htree, Tree.tokenKind?]

theorem ne_root_of_isToken {kind : TokenKind} (hroot : d.root.isToken kind = false)
    (hu : u.isToken kind = true) : u ≠ d.root := by
  rintro rfl
  rw [hroot] at hu
  cases hu

/-- A variable is met on the way down from its scope. -/
theorem mem_variablesIn_iff (hroot : d.root.isToken .variableName = false) (hshallow : IsShallow d)
    (hs : s ∈ d.root.descendants) (hscope : isScope s = true ∨ s = d.root) :
    u ∈ variablesIn s ∧ u.text = name ↔ IsVariableOf d s name u := by
  have henter (p : Node) : (!isScope p && !isClassLike p) = true ↔
      isScope p = false ∧ isClassLike p = false := by simp
  rw [variablesIn, Node.mem_walk_iff hs]
  simp only [henter]
  constructor
  · rintro ⟨⟨hu, habove, hbetween, htoken⟩, htext⟩
    have hscope : IsScopeOf d s u := ⟨habove, fun p hp hsp => (hbetween p hp hsp).1, hscope⟩
    exact ⟨hu, htoken, (scopeOf_eq_iff hshallow hu (ne_root_of_isToken hroot htoken)).2 hscope,
      fun p hp hsp => (hbetween p hp hsp).2, htext⟩
  · rintro ⟨hu, htoken, hscope, houtside, htext⟩
    have hscope := (scopeOf_eq_iff hshallow hu (ne_root_of_isToken hroot htoken)).1 hscope
    exact ⟨⟨hu, hscope.above, fun p hp hsp => ⟨hscope.innermost p hp hsp, houtside p hp hsp⟩,
      htoken⟩, htext⟩

theorem mem_parameters_iff :
    u ∈ (parameters s).filterMap (·.childToken? .variableName) ∧ u.text = name ↔
      IsParameterOf s name u := by
  rw [parameters, IsParameterOf]
  split
  · next list hlist =>
      obtain ⟨header, hheader, hlist⟩ := Option.bind_eq_some_iff.1 hlist
      simp only [List.mem_filterMap, List.mem_filter]
      constructor
      · rintro ⟨⟨parameter, ⟨hmem, hphrase⟩, htoken⟩, htext⟩
        exact ⟨header, list, parameter, hheader, hlist, hmem, hphrase, htoken, htext⟩
      · rintro ⟨header', list', parameter, hheader', hlist', hmem, hphrase, htoken, htext⟩
        cases hheader.symm.trans hheader'
        cases hlist.symm.trans hlist'
        exact ⟨⟨parameter, ⟨hmem, hphrase⟩, htoken⟩, htext⟩
  · next hlist =>
      refine iff_of_false (by simp) ?_
      rintro ⟨header, list, parameter, hheader, hlist', -⟩
      cases hlist'.symm.trans (Option.bind_eq_none_iff.1 hlist header hheader)

/-- A walk for variables goes on below phrases that are neither functions nor classes. -/
theorem enters_of_isPhraseIn {kinds : List PhraseKind} (h : n.isPhraseIn kinds = true)
    (hkinds : ∀ k ∈ kinds, k.isFunctionLike = false ∧ k.isClassLike = false) :
    (!isScope n && !isClassLike n) = true := by
  obtain ⟨kind, hkind, hmem⟩ := (Option.any_eq_true _ _).1 h
  obtain ⟨hfunction, hclass⟩ := hkinds kind (List.contains_iff_mem.1 hmem)
  simp [isScope, isClassLike, hkind, hfunction, hclass]

theorem of_childOf? {kinds : List PhraseKind} (h : n.childOf? kinds = some c) :
    c ∈ n.children ∧ c.isPhraseIn kinds = true := by
  rw [Node.childOf?] at h
  have hkind := List.find?_some h
  exact ⟨List.mem_of_find?_eq_some h, hkind⟩

theorem of_childToken? {kind : TokenKind} (h : n.childToken? kind = some c) :
    c ∈ n.children ∧ c.isToken kind = true := by
  rw [Node.childToken?] at h
  have hkind := List.find?_some h
  exact ⟨List.mem_of_find?_eq_some h, hkind⟩

/-- A parameter is one of the variables of its function. -/
theorem IsParameterOf.mem_variablesIn (h : IsParameterOf s name u) : u ∈ variablesIn s := by
  obtain ⟨header, list, parameter, hheader, hlist, hparameter, hphrase, htoken, -⟩ := h
  obtain ⟨hheader, hheaderKind⟩ := of_childOf? hheader
  obtain ⟨hlist, hlistKind⟩ := of_childOf? hlist
  obtain ⟨hu, htoken⟩ := of_childToken? htoken
  have hparameterKind : parameter.isPhraseIn [.parameterDeclaration] = true := by
    simpa [Node.isPhraseIn, Node.isPhrase, Option.any_eq_true] using hphrase
  have hreached : Node.Reached (fun n => !isScope n && !isClassLike n) s u :=
    .inner (.inner (.inner (.child hheader)
      (enters_of_isPhraseIn hheaderKind (by decide)) hlist)
      (enters_of_isPhraseIn hlistKind (by decide)) hparameter)
      (enters_of_isPhraseIn hparameterKind (by decide)) hu
  exact Node.mem_walk_iff_reached.2 ⟨hreached, htoken⟩

/-! ### Source order -/

theorem childToken?_sublist (n : Node) (kind : TokenKind) :
    (n.childToken? kind).toList.Sublist n.descendants := by
  cases h : n.childToken? kind with
  | none => exact List.nil_sublist _
  | some c =>
      rw [Option.toList_some, List.singleton_sublist]
      exact Node.mem_descendants_of_mem_children (of_childToken? h).1

theorem parameters_sublist (s : Node) :
    ((parameters s).filterMap (·.childToken? .variableName)).Sublist s.descendants := by
  rw [parameters]
  split
  · next list hlist =>
      obtain ⟨header, hheader, hlist⟩ := Option.bind_eq_some_iff.1 hlist
      have hlist : list ∈ s.descendants :=
        Node.descendants_trans (Node.mem_descendants_of_mem_children (of_childOf? hheader).1)
          (Node.mem_descendants_of_mem_children (of_childOf? hlist).1)
      have hchildren : (list.children.filterMap (·.childToken? .variableName)).Sublist
          list.descendants := by
        rw [Node.descendants_eq list, List.filterMap_eq_flatMap_toList]
        exact .cons list (.flatMap_right _ fun p _ => childToken?_sublist p _)
      exact ((List.filter_sublist.filterMap _).trans hchildren).trans
        (Node.descendants_sublist hlist)
  · exact List.nil_sublist _

/-- What is found first in a list in source order is first in the source. -/
theorem isFirst_of_named? {number : Nat} {uri text : String} {tokens : List Node}
    {P : Node → Prop} (hsublist : tokens.Sublist (Document.parse number uri text).root.descendants)
    (htoken : ∀ u ∈ tokens, u.isToken .variableName = true)
    (hP : ∀ u, u ∈ tokens ∧ u.text = name ↔ P u) (h : named? name tokens = some v) :
    IsFirst P v := by
  have hkind (u : Node) (hu : u ∈ tokens) : u.tokenKind?.isSome = true := by
    simp [LawfulBEq.eq_of_beq (htoken u hu)]
  obtain ⟨htext, before, after, rfl, hbefore⟩ := List.find?_eq_some_iff_append.1 h
  have hsorted := (Document.pairwise_tokens number uri text).sublist hsublist
  rw [List.pairwise_append, List.pairwise_cons] at hsorted
  refine ⟨(hP v).1 ⟨by simp, LawfulBEq.eq_of_beq htext⟩, fun u hu => ?_⟩
  obtain ⟨hmem, hu⟩ := (hP u).2 hu
  rcases List.mem_append.1 hmem with hfront | hback
  · have hother := hbefore u hfront
    rw [hu] at hother
    simp at hother
  · refine (List.mem_cons.1 hback).imp_right fun hafter => ?_
    exact hsorted.2.1.1 u hafter (hkind v (by simp)) (hkind u hmem)

/-! ### Declarations -/

theorem isToken_of_mem_variablesIn (h : u ∈ variablesIn s) : u.isToken .variableName = true :=
  (Node.mem_walk_iff_reached.1 h).2

theorem isSome_named?_iff {tokens : List Node} :
    (named? name tokens).isSome = true ↔ ∃ u ∈ tokens, u.text = name := by
  simp [named?]

theorem IsVariableOf.isScopeOf (hu : IsVariableOf d s name u)
    (hroot : d.root.isToken .variableName = false) (hshallow : IsShallow d) : IsScopeOf d s u :=
  (scopeOf_eq_iff hshallow hu.mem (ne_root_of_isToken hroot hu.token)).1 hu.scope

/-- The first parameter of the name declares a variable, or else the first variable of the name. -/
theorem variableDeclaration?_isFirst {number : Nat} {uri text : String}
    (hd : d = Document.parse number uri text) (hshallow : IsShallow d)
    (hu : IsVariableOf d s name u) :
    ∃ v, variableDeclaration? s name = some v ∧ IsVariableOf d s name v ∧
      ((∃ u, IsParameterOf s name u) → IsFirst (IsParameterOf s name) v) ∧
      ((¬∃ u, IsParameterOf s name u) → IsFirst (IsVariableOf d s name) v) := by
  subst hd
  have hroot := isToken_root number uri text .variableName
  have hscope := hu.isScopeOf hroot hshallow
  have hs := Node.mem_descendants_of_mem_above hu.mem s hscope.above
  have hvariable (w : Node) : w ∈ variablesIn s ∧ w.text = name ↔
      IsVariableOf (.parse number uri text) s name w :=
    mem_variablesIn_iff hroot hshallow hs hscope.scope
  by_cases hparameter : ∃ w, IsParameterOf s name w
  · obtain ⟨w, hw⟩ := hparameter
    obtain ⟨v, hv⟩ := Option.isSome_iff_exists.1 (isSome_named?_iff.2 ⟨w, mem_parameters_iff.2 hw⟩)
    have hfirst : IsFirst (IsParameterOf s name) v := by
      refine isFirst_of_named? ((parameters_sublist s).trans (Node.descendants_sublist hs)) ?_
        (fun _ => mem_parameters_iff) hv
      intro p hp
      exact isToken_of_mem_variablesIn (mem_parameters_iff.1 ⟨hp, rfl⟩).mem_variablesIn
    obtain ⟨-, -, -, -, -, -, -, -, htext⟩ := hfirst.1
    refine ⟨v, ?_, ?_, fun _ => hfirst, fun h => absurd ⟨w, hw⟩ h⟩
    · rw [variableDeclaration?, hv, Option.some_or]
    · exact (hvariable v).1 ⟨hfirst.1.mem_variablesIn, htext⟩
  · have hnone : named? name ((parameters s).filterMap (·.childToken? .variableName)) = none := by
      rw [← Option.not_isSome_iff_eq_none, isSome_named?_iff]
      rintro ⟨w, hw⟩
      exact hparameter ⟨w, mem_parameters_iff.1 hw⟩
    obtain ⟨v, hv⟩ := Option.isSome_iff_exists.1 (isSome_named?_iff.2 ⟨u, (hvariable u).2 hu⟩)
    have hfirst : IsFirst (IsVariableOf (.parse number uri text) s name) v :=
      isFirst_of_named? ((Node.walk_sublist _ _ s).trans (Node.descendants_sublist hs))
        (fun _ => isToken_of_mem_variablesIn) hvariable hv
    refine ⟨v, ?_, hfirst.1, fun h => absurd h hparameter, fun _ => hfirst⟩
    rw [variableDeclaration?, hnone, Option.none_or, hv]

theorem referenceOf?_of_isVariableOf (h : IsVariableOf d s name u) :
    referenceOf? u = some (.variable name s.key) := by
  have hkind : u.kind = .token .variableName := by
    have htoken := h.token
    rw [Node.isToken, Node.tokenKind?] at htoken
    rw [Node.kind]
    cases htree : u.tree with
    | phrase => simp [htree, Tree.tokenKind?] at htoken
    | token _ t => simpa [htree, Tree.tokenKind?, Tree.kind] using htoken
  rw [referenceOf?, hkind, variableReference, h.scope, h.text]

/-- What a variable refers to is looked up in the scope that its key finds. -/
theorem declarations_of_isVariableOf (hd : d ∈ (Store.ofSources history).documents)
    (hshallow : IsShallow d) (hu : IsVariableOf d s name u) :
    (Store.ofSources history).declarations (.variable name s.key) =
      (variableDeclaration? s name).toList := by
  obtain ⟨number, uri, text, rfl⟩ := Store.exists_parse_of_mem hd
  have hscope := hu.isScopeOf (isToken_root number uri text .variableName) hshallow
  have hs := Node.mem_descendants_of_mem_above hu.mem s hscope.above
  have hnode : (Store.ofSources history).node? s.key = some s :=
    Store.node?_eq_some_iff.2 ⟨⟨_, hd, hs⟩, rfl⟩
  rw [Store.declarations, hnode, Option.bind_some]

/-- All variables of one name in a scope have one declaration, which is one of them. -/
theorem declarations_variable {t : Node}
    (hd : d ∈ (Store.ofSources history).documents) (hshallow : IsShallow d)
    (ht : t ∈ d.root.descendants) (htoken : t.isToken .variableName = true)
    (houtside : ∀ p ∈ t.above, scopeOf t ∈ p.above → isClassLike p = false) :
    ∃ v, (referenceOf? t).map (Store.ofSources history).declarations = some [v] ∧
      v.text = t.text ∧ referenceOf? v = referenceOf? t ∧
      (∀ u, IsVariableOf d (scopeOf t) t.text u → referenceOf? u = referenceOf? t) ∧
      IsVariableOf d (scopeOf t) t.text v ∧
      ((∃ u, IsParameterOf (scopeOf t) t.text u) → IsFirst (IsParameterOf (scopeOf t) t.text) v) ∧
      ((¬∃ u, IsParameterOf (scopeOf t) t.text u) →
        IsFirst (IsVariableOf d (scopeOf t) t.text) v) := by
  obtain ⟨number, uri, text, hparse⟩ := Store.exists_parse_of_mem hd
  have hvariable : IsVariableOf d (scopeOf t) t.text t := ⟨ht, htoken, rfl, houtside, rfl⟩
  obtain ⟨v, hdeclaration, hv, hfirst⟩ := variableDeclaration?_isFirst hparse hshallow hvariable
  have hreference {u : Node} (hu : IsVariableOf d (scopeOf t) t.text u) :
      referenceOf? u = referenceOf? t := by
    rw [referenceOf?_of_isVariableOf hu, referenceOf?_of_isVariableOf hvariable]
  refine ⟨v, ?_, hv.text, hreference hv, fun _ => hreference, hv, hfirst⟩
  rw [referenceOf?_of_isVariableOf hvariable, Option.map_some,
    declarations_of_isVariableOf hd hshallow hvariable, hdeclaration, Option.toList_some]

/-- The parameter is the declaration, and not the variable of the same name before it in another
scope. -/
theorem declarations_variable_arrow :
    ∃ d ∈ (Store.ofSources [("a.php", "<?php $a=fn($a)=>$a;")]).documents, IsShallow d ∧
      ∃ t ∈ d.root.descendants, t.isToken .variableName = true ∧ t.pos = 17 ∧
        (∀ p ∈ t.above, scopeOf t ∈ p.above → isClassLike p = false) ∧
        ∃ v, (referenceOf? t).map
            (Store.ofSources [("a.php", "<?php $a=fn($a)=>$a;")]).declarations = some [v] ∧
          v.pos = 12 ∧ referenceOf? v = referenceOf? t := by
  have hd : Document.parse 0 "a.php" "<?php $a=fn($a)=>$a;" ∈
      (Store.ofSources [("a.php", "<?php $a=fn($a)=>$a;")]).documents := by
    have hlatest : latest [("a.php", "<?php $a=fn($a)=>$a;")] =
        [("a.php", "<?php $a=fn($a)=>$a;")] := by
      simp [latest, List.eraseDups_cons]
    simp [Store.documents_ofSources, hlatest]
  have hshallow : IsShallow (Document.parse 0 "a.php" "<?php $a=fn($a)=>$a;") := by
    have hall : (Document.parse 0 "a.php" "<?php $a=fn($a)=>$a;").root.descendants.all
        (fun n => decide (n.above.length ≤ maxWalk)) = true := by
      decide +kernel
    simpa only [IsShallow, List.all_eq_true, decide_eq_true_eq] using hall
  have hnode : ((Document.parse 0 "a.php" "<?php $a=fn($a)=>$a;").root.descendants.map fun n =>
      (n.isToken .variableName, n.pos, n.above.all (!isClassLike ·),
        (variableDeclaration? (scopeOf n) n.text).map (·.pos)))[21]? =
      some (true, 17, true, some 12) := by
    decide +kernel
  obtain ⟨t, ht, heq⟩ := List.mem_map.1 (List.mem_of_getElem? hnode)
  simp only [Prod.mk.injEq, List.all_eq_true, Bool.not_eq_true'] at heq
  obtain ⟨htoken, hpos, hclass, hdeclaration⟩ := heq
  have houtside (p) (hp : p ∈ t.above) (_ : scopeOf t ∈ p.above) := hclass p hp
  obtain ⟨v, hv, -, hreference, -, hvariable, -⟩ :=
    declarations_variable hd hshallow ht htoken houtside
  refine ⟨_, hd, hshallow, t, ht, htoken, hpos, houtside, v, hv, ?_, hreference⟩
  rw [← hreference, referenceOf?_of_isVariableOf hvariable, Option.map_some,
    declarations_of_isVariableOf hd hshallow hvariable, Option.some_inj] at hv
  rw [Option.toList_eq_singleton_iff.1 hv] at hdeclaration
  exact Option.some_inj.1 hdeclaration

end ArrayShapes.Project
