import ArrayShapes.Inference.Resolve
import ArrayShapes.Proofs.Shape.Keys
import ArrayShapes.Proofs.Syntax.Arena
import ArrayShapes.Proofs.Syntax.Binding

/-!
Assigned elements of arrays. What is assigned to an element of a variable becomes a shape of the
variable, from which the same subscripts in the order in which they are written lead back to what was
assigned, and other literal keys lead nowhere.
-/

namespace ArrayShapes

namespace Syntax.Node

/-! ### Children that are not blank -/

variable {n s : Node} {kind : TokenKind}

theorem mem_children_of_nth? {i : Nat} (h : s.nth? i = some n) : n ∈ s.children :=
  List.mem_of_mem_filter (List.mem_of_getElem? h)

theorem isToken_of_isTokenIn (h : n.tree.sketch.isTokenIn [kind] = true) :
    n.isToken kind = true := by
  rw [Node.isToken, Node.tokenKind?]
  cases htree : n.tree with
  | token id t => simpa [htree, Tree.sketch, Sketch.isTokenIn, Tree.tokenKind?] using h
  | phrase => simp [htree, Tree.sketch, Sketch.isTokenIn] at h

theorem pos_of_fills {blank : Nat → Nat → Prop} {lo hi : Nat}
    (htoken : n.isToken kind = true) (h : n.tree.Fills blank lo hi) : lo = n.pos ∧ n.pos < hi := by
  rw [Node.pos]
  cases htree : n.tree with
  | phrase => simp [Node.isToken, Node.tokenKind?, htree, Tree.tokenKind?] at htoken
  | token id t =>
      rw [htree] at h
      obtain ⟨hpos, hsize, hstop⟩ := Tree.Fills.tiles _ h
      simp only [Tiles, Token.stop] at hstop
      exact ⟨hpos.symm, by simp only [Tree.pos]; omega⟩

section Documents

variable {number : Nat} {uri text : String}

theorem mem_descendants_of_nth? (hn : n ∈ (Document.parse number uri text).root.descendants)
    {i : Nat} (h : s.nth? i = some n) : s ∈ (Document.parse number uri text).root.descendants := by
  have hparent := Node.parent?_of_mem_children (mem_children_of_nth? h)
  rcases Node.eq_or_mem_children hn with rfl | ⟨p, hp, hc⟩
  · cases hparent
  · cases (Node.parent?_of_mem_children hc).symm.trans hparent
    exact hp

theorem allows_significant (hn : n ∈ (Document.parse number uri text).root.descendants)
    {kind : PhraseKind} (hkind : n.isPhrase kind = true) :
    kind.allows (n.significant.map (·.tree.sketch)) = true := by
  have hsketch : n.significant.map (·.tree.sketch) = Tree.sketchList n.tree.children := by
    rw [Tree.sketchList_eq, ← map_tree_children, List.filter_map, List.map_map]
    rfl
  rw [hsketch]
  exact isAllowed hn kind (eq_of_beq hkind)

end Documents

end Syntax.Node

namespace Inference

open Syntax

/-! ### Steps and keys -/

/-- What keys lead to, one after the other. -/
def project (shape : Shape) (keys : List Shape) : List Shape :=
  keys.foldl (fun shapes key => shapes.flatMap (·.get key)) [shape]

/-- The key leads to the element that the step leads to: any single key to a new one. -/
inductive Step.Takes : Step → Shape → Prop
  | append {key : Shape} (h : key.isUnion = false) : Takes .append key
  | key {key : Shape} (h : key.isUnion = false) : Takes (.key key) key

theorem foldl_get (shapes keys : List Shape) :
    keys.foldl (fun shapes key => shapes.flatMap (·.get key)) shapes =
      shapes.flatMap (project · keys) := by
  induction keys generalizing shapes with
  | nil => simp [project]
  | cons key keys ih =>
      rw [List.foldl_cons, ih, List.flatMap_assoc]
      refine congrArg (shapes.flatMap ·) (funext fun s => ?_)
      rw [project, List.foldl_cons, ih, List.flatMap_singleton]

theorem project_cons (shape key : Shape) (keys : List Shape) :
    project shape (key :: keys) = (shape.get key).flatMap (project · keys) := by
  rw [project, List.foldl_cons, foldl_get, List.flatMap_singleton]

variable {step : Step} {steps : List Step} {keys : List Shape} {k k' v : Shape}

theorem Step.Takes.get_wrap (h : step.Takes k) (v : Shape) : (step.wrap v).get k = [v] := by
  cases h with
  | append hk => rw [Step.wrap, Shape.get_eq_lookup rfl hk]; rfl
  | key hk => rw [Step.wrap, Shape.get_map hk hk, if_pos (Shape.agrees_self k)]

theorem eq_of_mem_get_wrap {s : Shape} (h : s ∈ (step.wrap v).get k) : s = v := by
  obtain ⟨a, ha, key, -, hs⟩ := Shape.mem_get_iff.1 h
  cases step with
  | append =>
      obtain rfl := List.mem_singleton.1 ha
      exact List.mem_singleton.1 hs
  | key k =>
      obtain rfl := List.mem_singleton.1 ha
      simp only [Step.wrap, Shape.lookup] at hs
      split at hs
      · exact List.mem_singleton.1 hs
      · cases hs

theorem project_wrap (h : List.Forall₂ Step.Takes steps keys) (v : Shape) :
    project (steps.foldr Step.wrap v) keys = [v] := by
  induction h with
  | nil => rfl
  | cons hstep _ ih =>
      rw [List.foldr_cons, project_cons, hstep.get_wrap, List.flatMap_singleton, ih]

/-- A literal key that is not the one of its step leads nowhere, whatever the other keys are. -/
theorem project_wrap_of_ne {i : Nat} (hstep : steps[i]? = some (.key k)) (hkey : keys[i]? = some k')
    (hk : k.isLiteral = true) (hk' : k'.isLiteral = true) (hne : k ≠ k') (v : Shape) :
    project (steps.foldr Step.wrap v) keys = [] := by
  induction i generalizing steps keys with
  | zero =>
      cases steps with
      | nil => cases hstep
      | cons step steps =>
          cases keys with
          | nil => cases hkey
          | cons key keys =>
              cases hstep
              cases hkey
              rw [List.foldr_cons, project_cons, Step.wrap,
                Shape.get_map (Shape.isUnion_of_isLiteral hk) (Shape.isUnion_of_isLiteral hk'),
                Shape.agrees_eq_false hk hk' hne]
              rfl
  | succ i ih =>
      cases steps with
      | nil => cases hstep
      | cons step steps =>
          cases keys with
          | nil => cases hkey
          | cons key keys =>
              rw [List.foldr_cons, project_cons, List.flatMap_eq_nil_iff]
              intro s hs
              rw [eq_of_mem_get_wrap hs]
              exact ih hstep hkey

/-! ### Subscripts as they are written -/

/-- Subscripts are built on a node, the first on the node and each other one on the one before it, up
to `target`. -/
inductive Subscripted : Node → List Node → Node → Prop
  | nil (n : Node) : Subscripted n [] n
  | cons {n s target : Node} {subscripts : List Node} (hs : s.isPhrase .subscriptExpression = true)
      (hn : s.nth? 0 = some n) (rest : Subscripted s subscripts target) :
      Subscripted n (s :: subscripts) target

/-- The key by which a subscript reads. -/
def keyOf (subscript : Node) : Shape := ((subscriptKey? subscript).bind literal?).getD .any

theorem isLiteral_of_literal? {n : Node} {shape : Shape} (h : literal? n = some shape) :
    shape.isLiteral = true := by
  unfold literal? at h
  split at h
  · obtain ⟨content, -, rfl⟩ := Option.map_eq_some_iff.1 h
    rfl
  · obtain ⟨value, -, rfl⟩ := Option.map_eq_some_iff.1 h
    rfl
  · cases h

/-- A subscript reads what it has written. -/
theorem stepOf_takes (subscript : Node) : (stepOf subscript).Takes (keyOf subscript) := by
  unfold stepOf keyOf
  cases subscriptKey? subscript with
  | none => exact .append rfl
  | some key =>
      have hsingle : ((literal? key).getD .any).isUnion = false := by
        cases hliteral : literal? key with
        | none => rfl
        | some shape => exact Shape.isUnion_of_isLiteral (isLiteral_of_literal? hliteral)
      exact .key hsingle

namespace Subscripted

variable {n s target : Node} {subscripts : List Node}

/-- The steps to a target are found as they are written. -/
theorem targetFrom?_eq (h : Subscripted n subscripts target)
    (htarget : ∀ p, target.parent? = some p → p.isPhrase .subscriptExpression = false) :
    targetFrom? n.document n.tree n.place = some (target, subscripts.map stepOf) := by
  induction h with
  | nil n =>
      obtain ⟨d, t, place⟩ := n
      cases place with
      | root => rfl
      | inside parent place before after =>
          rw [targetFrom?, if_neg (by simp [htarget _ rfl])]
          rfl
  | @cons n s target subscripts hs hn _ ih =>
      obtain ⟨before, after, -, hplace⟩ := Node.exists_place_of_mem_children (Node.mem_children_of_nth? hn)
      rw [hplace, targetFrom?, if_pos hs, if_pos (by rw [hn]; simp), ih htarget]
      rfl

section Written

variable {number : Nat} {uri text : String}

/-- The opening bracket of a subscript stands behind what is subscripted. -/
theorem exists_bracket (hs : s ∈ (Document.parse number uri text).root.descendants)
    (hkind : s.isPhrase .subscriptExpression = true) (hn : s.nth? 0 = some n) :
    ∃ before between after bracket, bracket.isToken .openBracket = true ∧
      s.children = before ++ n :: (between ++ bracket :: after) := by
  have hallowed := Node.allows_significant hs hkind
  -- the second of the children that are not blank is the bracket
  obtain ⟨bracket, rest, hsignificant, hbracket⟩ : ∃ bracket rest,
      s.significant = n :: bracket :: rest ∧ bracket.isToken .openBracket = true := by
    rw [Node.nth?] at hn
    match hlist : s.significant with
    | [] => simp [hlist] at hn
    | [_] => simp [hlist, PhraseKind.allows, PhraseKind.slots?, Slot.filledBy] at hallowed
    | m :: bracket :: rest =>
        obtain rfl : m = n := by simpa [hlist] using hn
        rw [hlist, List.map_cons, List.map_cons, PhraseKind.allows, PhraseKind.slots?,
          Option.all_some, Slot.filledBy, Slot.filledBy] at hallowed
        simp only [Bool.and_eq_true] at hallowed
        exact ⟨bracket, rest, rfl, Node.isToken_of_isTokenIn hallowed.2.1⟩
  obtain ⟨before, more, hchildren, -, -, hmore⟩ := List.filter_eq_cons_iff.1 hsignificant
  obtain ⟨between, after, rfl, -⟩ := List.filter_eq_cons_iff.1 hmore
  exact ⟨before, between, after, bracket, hbracket, hchildren⟩

/-- The brackets of subscripts stand one after the other in the source, in the order of the steps. -/
theorem exists_brackets (h : Subscripted n subscripts target)
    (hn : n ∈ (Document.parse number uri text).root.descendants) :
    ∃ lo hi brackets, n.tree.Fills (Blank (scan text).tokens.toList) lo hi ∧
      List.Forall₂ (fun s b => b ∈ s.children ∧ b.isToken .openBracket = true) subscripts brackets ∧
      (∀ b ∈ brackets, hi ≤ b.pos) ∧ (brackets.map Node.pos).Pairwise (· < ·) := by
  induction h with
  | nil n =>
      obtain ⟨lo, hi, hfills⟩ := Node.exists_fills hn
      exact ⟨lo, hi, [], hfills, .nil, by simp, .nil⟩
  | @cons n s target subscripts hkind hfirst _ ih =>
      have hs := Node.mem_descendants_of_nth? hn hfirst
      obtain ⟨lo, hi, brackets, hfills, hbrackets, hbehind, hpos⟩ := ih hs
      obtain ⟨before, between, after, bracket, hbracket, hchildren⟩ := exists_bracket hs hkind hfirst
      have htrees : s.tree.children = before.map Node.tree ++
          n.tree :: (between.map Node.tree ++ bracket.tree :: after.map Node.tree) := by
        rw [← Node.map_tree_children, hchildren]
        simp
      obtain ⟨start, stop, -, hfirst, hrest⟩ := hfills.children htrees
      obtain ⟨mid, hbetween, mid', htoken, hafter⟩ := Tree.fillsList_append.1 hrest
      have hle := (Tree.FillsList.tiles _ hbetween).le
      have hle' := (Tree.FillsList.tiles _ hafter).le
      obtain ⟨rfl, hlt⟩ := Node.pos_of_fills hbracket htoken
      refine ⟨start, stop, bracket :: brackets, hfirst, .cons ⟨?_, hbracket⟩ hbrackets, ?_, ?_⟩
      · rw [hchildren]
        simp
      · intro b hb
        rcases List.mem_cons.1 hb with rfl | hb
        · exact hle
        · have hhi := hbehind b hb
          omega
      · rw [List.map_cons, List.pairwise_cons]
        refine ⟨fun p hp => ?_, hpos⟩
        obtain ⟨b, hb, rfl⟩ := List.mem_map.1 hp
        have hhi := hbehind b hb
        omega

end Written

theorem not_isPhrase_of_assignedValue? {value p : Node} (h : assignedValue? target = some value)
    (hp : target.parent? = some p) : p.isPhrase .subscriptExpression = false := by
  simp only [assignedValue?, hp, Option.bind_eq_bind, Option.bind_some] at h
  split at h
  case isTrue hassignment =>
    have hkind := eq_of_beq (Bool.and_eq_true_iff.1 hassignment).1
    simp [Node.isPhrase, hkind]
  case isFalse => cases h

theorem assignedShapes_eq (h : Subscripted n subscripts target) {value : Node}
    (hvalue : assignedValue? target = some value) :
    assignedShapes n = .ask value fun shapes =>
      .answer (shapes.map fun s => (subscripts.map stepOf).foldr Step.wrap s) := by
  rw [assignedShapes, h.targetFrom?_eq fun p hp => not_isPhrase_of_assignedValue? hvalue hp]
  simp only [hvalue]
  rfl

end Subscripted

/-- What is put into an element is read back by the same keys in the order in which they are written,
and not by other literal keys. The shapes of a variable that is assigned to by subscripts are built that
way, for the subscripts in the order of their brackets. -/
theorem project_assigned (number : Nat) (uri text : String) :
    (∀ steps keys v, List.Forall₂ Step.Takes steps keys →
      project (steps.foldr Step.wrap v) keys = [v]) ∧
    (∀ (steps : List Step) (keys : List Shape) (v k k' : Shape) (i : Nat),
      steps[i]? = some (.key k) → keys[i]? = some k' → k.isLiteral = true → k'.isLiteral = true →
        k ≠ k' → project (steps.foldr Step.wrap v) keys = []) ∧
    ∀ n ∈ (Document.parse number uri text).root.descendants, ∀ subscripts target value,
      Subscripted n subscripts target → assignedValue? target = some value →
        (assignedShapes n = .ask value fun shapes =>
          .answer (shapes.map fun s => (subscripts.map stepOf).foldr Step.wrap s)) ∧
        (∃ brackets, List.Forall₂ (fun s b => b ∈ s.children ∧ b.isToken .openBracket = true)
          subscripts brackets ∧ (brackets.map Node.pos).Pairwise (· < ·)) ∧
        ∀ v, project ((subscripts.map stepOf).foldr Step.wrap v) (subscripts.map keyOf) = [v] := by
  refine ⟨fun steps keys v h => project_wrap h v,
    fun steps keys v k k' i hstep hkey hk hk' hne => project_wrap_of_ne hstep hkey hk hk' hne v,
    fun n hn subscripts target value hsubscripted hvalue => ?_⟩
  obtain ⟨-, -, brackets, -, hbrackets, -, hpos⟩ := hsubscripted.exists_brackets hn
  refine ⟨hsubscripted.assignedShapes_eq hvalue, ⟨brackets, hbrackets, hpos⟩, project_wrap ?_⟩
  rw [List.forall₂_map_left_iff, List.forall₂_map_right_iff, List.forall₂_same]
  exact fun s _ => stepOf_takes s

/-- The key of the inner subscript is the outer one of the shape, and `3` is not `'3'`. -/
theorem project_assigned_nested :
    project (.map (.str "p") (.list (.map (.int 3) .any))) [.str "p", .int 7, .int 3] = [.any] ∧
    project (.map (.str "p") (.list (.map (.int 3) .any))) [.str "p", .int 7, .str "3"] = [] ∧
    ∃ n ∈ (Document.parse 0 "" "<?php $x['p'][] = 'a';").root.descendants, ∃ value,
      (n.label, value.label) = ("SimpleVariable@6..8", "StringLiteral@18..21") ∧
      assignedShapes n = .ask value fun shapes =>
        .answer (shapes.map fun s => .map (.str "p") (.list s)) := by
  obtain ⟨hsame, hother, hwritten⟩ := project_assigned 0 "" "<?php $x['p'][] = 'a';"
  refine ⟨hsame [.key (.str "p"), .append, .key (.int 3)] _ _
      (.cons (.key rfl) (.cons (.append rfl) (.cons (.key rfl) .nil))),
    hother [.key (.str "p"), .append, .key (.int 3)] _ _ (.int 3) (.str "3") 2 rfl rfl rfl rfl
      (by simp), ?_⟩
  have hlabel : ((Document.parse 0 "" "<?php $x['p'][] = 'a';").root.descendants.map fun t =>
      (t.isPhrase .subscriptExpression, stepOf t, (assignedValue? t).map Node.label,
        (t.nth? 0).map fun s => (s.isPhrase .subscriptExpression, stepOf s,
          (s.nth? 0).map Node.label)))[7]? =
      some (true, .append, some "StringLiteral@18..21",
        some (true, .key (.str "p"), some "SimpleVariable@6..8")) := by cbv
  obtain ⟨t, ht, hlabel⟩ := List.mem_map.1 (List.mem_of_getElem? hlabel)
  simp only [Prod.mk.injEq, Option.map_eq_some_iff] at hlabel
  obtain ⟨htkind, htstep, ⟨value, hvalue, hvaluelabel⟩, s, hs, hskind, hsstep, n, hn, hnlabel⟩ := hlabel
  have hmem := Node.descendants_trans ht (Node.mem_descendants_iff.2 (.inr
    ⟨s, Node.mem_children_of_nth? hs, Node.mem_descendants_iff.2 (.inr
      ⟨n, Node.mem_children_of_nth? hn, Node.self_mem_descendants n⟩)⟩))
  have hassigned := (hwritten n hmem [s, t] t value
    (.cons hskind hn (.cons htkind hs (.nil t))) hvalue).1
  refine ⟨n, hmem, value, by rw [hnlabel, hvaluelabel], ?_⟩
  simpa [hsstep, htstep, Step.wrap] using hassigned

end Inference

end ArrayShapes
