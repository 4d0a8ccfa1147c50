import ArrayShapes.Syntax.Node

/-!
Pre-order, by recursion on the tree, and that the walk over the nodes of a document follows it.
-/

namespace ArrayShapes.Syntax

namespace Tree

def token? : Tree → Option Token
  | .token _ t => some t
  | .phrase .. => none

mutual

/-- A tree and everything below it: the parent first, then its children one after the other. -/
def preorder : Tree → List Tree
  | .token id t => [.token id t]
  | .phrase id kind pos stop cs => .phrase id kind pos stop cs :: preorderList cs

def preorderList : List Tree → List Tree
  | [] => []
  | t :: ts => t.preorder ++ preorderList ts

end

theorem preorder_eq (t : Tree) : t.preorder = t :: preorderList t.children := by
  cases t with
  | token => rfl
  | phrase => rfl

theorem preorderList_append (ts us : List Tree) :
    preorderList (ts ++ us) = preorderList ts ++ preorderList us := by
  induction ts with
  | nil => rfl
  | cons t ts ih => simp [preorderList, ih]

theorem mem_preorderList {t : Tree} {ts : List Tree} :
    t ∈ preorderList ts ↔ ∃ u ∈ ts, t ∈ u.preorder := by
  induction ts with
  | nil => simp [preorderList]
  | cons u us ih => simp [preorderList, ih]

/-- What holds of a phrase and of all that is below its children holds of all of its tree. -/
theorem forall_preorder_phrase {P : Tree → Prop} {id pos stop : Nat} {kind : PhraseKind}
    {cs : List Tree} (h : P (.phrase id kind pos stop cs)) (hcs : ∀ c ∈ cs, ∀ u ∈ c.preorder, P u) :
    ∀ u ∈ (Tree.phrase id kind pos stop cs).preorder, P u := by
  intro u hu
  rw [preorder_eq] at hu
  rcases List.mem_cons.1 hu with rfl | hu
  · exact h
  · obtain ⟨c, hc, hmem⟩ := mem_preorderList.1 hu
    exact hcs c hc u hmem

theorem mem_preorderList_of_mem {t : Tree} {ts : List Tree} (h : t ∈ ts) : t ∈ preorderList ts :=
  mem_preorderList.2 ⟨t, h, by rw [preorder_eq]; exact List.mem_cons_self⟩

theorem tokensList_append (ts us : List Tree) :
    tokensList (ts ++ us) = tokensList ts ++ tokensList us := by
  induction ts with
  | nil => rfl
  | cons t ts ih => simp [tokensList, ih]

mutual

/-- The tokens among the nodes in pre-order are the leaves of the tree. -/
theorem filterMap_token?_preorder : (t : Tree) → t.preorder.filterMap token? = t.tokens
  | .token .. => rfl
  | .phrase _ _ _ _ cs => filterMap_token?_preorderList cs

theorem filterMap_token?_preorderList :
    (ts : List Tree) → (preorderList ts).filterMap token? = tokensList ts
  | [] => rfl
  | t :: ts => by
      simp only [preorderList, tokensList, List.filterMap_append]
      rw [filterMap_token?_preorder t, filterMap_token?_preorderList ts]

end

end Tree

namespace Node

theorem map_tree_walkFrom (forest : List Node) (done : Array Node) :
    (walkFrom (fun _ => true) (fun _ => true) forest done).toList.map tree =
      done.toList.map tree ++ Tree.preorderList (forest.map tree) := by
  fun_induction walkFrom (fun _ => true) (fun _ => true) forest done with
  | case1 done => simp [Tree.preorderList]
  | case2 done n rest ih =>
      simp only [↓reduceDIte, ↓reduceIte] at ih ⊢
      rw [ih]
      simp [Tree.preorderList, Tree.preorder_eq, Tree.preorderList_append]

theorem map_tree_descendants (n : Node) : n.descendants.map tree = n.tree.preorder := by
  have h := map_tree_walkFrom [n] #[]
  simpa [descendants, walk, Tree.preorderList] using h

theorem tree_mem_preorder {n p : Node} (hn : n ∈ p.descendants) : n.tree ∈ p.tree.preorder := by
  have hmem := List.mem_map_of_mem (f := tree) hn
  rwa [map_tree_descendants] at hmem

/-- The tokens met on a walk are the leaves of the tree. -/
theorem filterMap_token?_descendants (n : Node) :
    n.descendants.filterMap (·.tree.token?) = n.tree.tokens := by
  rw [← Tree.filterMap_token?_preorder, ← map_tree_descendants, List.filterMap_map]
  rfl

theorem map_id_descendants (n : Node) :
    n.descendants.map (·.tree.id) = n.tree.preorder.map Tree.id := by
  rw [← map_tree_descendants, List.map_map]
  rfl

end Node

end ArrayShapes.Syntax
