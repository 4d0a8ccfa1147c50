import ArrayShapes.Proofs.Syntax.Build
import ArrayShapes.Proofs.Syntax.Walk

/-!
What an arena holds of a forest. Tokens are made from left to right, so the arena has them in the
order in which a walk through the forest meets them. A phrase is made after its children and linked to
them at once, so a link tells the parent of a node and its place there as the forest has them.
-/

namespace ArrayShapes.Syntax

/-- A token with the number of its node. -/
def Tree.leaf? : Tree → Option Leaf
  | .token id t => some ⟨id, t⟩
  | .phrase .. => none

theorem Tree.leaf?_eq_some_iff {t : Tree} {l : Leaf} :
    t.leaf? = some l ↔ t = .token l.id l.token := by
  obtain ⟨id, token⟩ := l
  cases t <;> simp [leaf?]

namespace Arena

variable {a : Arena} {forest low high : List Tree}

/-! ### Linking -/

theorem getElem?_linkTo_of_notMem {children : List Nat} {id : Nat} (h : id ∉ children) (parent : Nat)
    (links : Array Link) (index : Nat) :
    (linkTo parent links children index)[id]? = links[id]? := by
  induction children generalizing links index with
  | nil => rfl
  | cons first rest ih =>
      obtain ⟨hne, hrest⟩ := not_or.1 (mt List.mem_cons.2 h)
      rw [linkTo, ih hrest, Array.getElem?_setIfInBounds_ne (Ne.symm hne)]

theorem getElem?_linkTo {children : List Nat} {links : Array Link} (hdistinct : children.Nodup)
    (hmade : ∀ id ∈ children, id < links.size) (parent index : Nat) {i id : Nat}
    (hid : children[i]? = some id) :
    (linkTo parent links children index)[id]? = some ⟨some parent, index + i⟩ := by
  induction children generalizing links index i with
  | nil => cases hid
  | cons first rest ih =>
      obtain ⟨hfirst, hdistinct⟩ := List.nodup_cons.1 hdistinct
      cases i with
      | zero =>
          cases hid
          rw [linkTo, getElem?_linkTo_of_notMem hfirst]
          simp [hmade id List.mem_cons_self]
      | succ i =>
          have hrest : ∀ id ∈ rest,
              id < (links.setIfInBounds first ⟨some parent, index⟩).size := fun id h => by
            simpa using hmade id (List.mem_cons_of_mem first h)
          rw [linkTo, ih hdistinct hrest _ hid, Nat.add_assoc, Nat.add_comm 1]

/-- A link that is there stays there when another node is made. -/
theorem getElem?_push_of_some {links : Array Link} {id : Nat} {link : Link}
    (h : links[id]? = some link) (next : Link) : (links.push next)[id]? = some link := by
  have hlt := (Array.getElem?_eq_some_iff.1 h).1
  rwa [Array.getElem?_push_lt hlt, ← Array.getElem?_eq_getElem hlt]

section Phrases

variable {children : List Nat} {id : Nat}

theorem getElem?_addPhrase (hdistinct : children.Nodup) (hmade : ∀ id ∈ children, id < a.size)
    {i : Nat} (hid : children[i]? = some id) :
    (a.addPhrase children).links[id]? = some ⟨some a.size, i⟩ := by
  have hlink := getElem?_linkTo hdistinct hmade a.size 0 hid
  rw [Nat.zero_add] at hlink
  exact getElem?_push_of_some hlink _

theorem getElem?_addPhrase_of_notMem {link : Link} (hlink : a.links[id]? = some link)
    (hid : id ∉ children) : (a.addPhrase children).links[id]? = some link := by
  refine getElem?_push_of_some ?_ _
  rwa [getElem?_linkTo_of_notMem hid]

theorem getElem?_addPhrase_size (a : Arena) (children : List Nat) :
    (a.addPhrase children).links[a.size]? = some .loose := by
  have hlast : ((linkTo a.size a.links children 0).push Link.loose)[_]? = _ :=
    Array.getElem?_push_size
  rwa [size_linkTo] at hlast

end Phrases

/-! ### Ways down -/

section Ways

variable {id : Nat}

theorem way?_of_none (h : a.links[id]? = none) (below : List Nat) : a.way? id below = none := by
  rw [way?]
  split <;> simp_all

theorem way?_of_loose (h : a.links[id]? = some .loose) (below : List Nat) :
    a.way? id below = some below := by
  rw [way?]
  split <;> simp_all [Link.loose]

theorem way?_of_link {parent index : Nat} (h : a.links[id]? = some ⟨some parent, index⟩)
    (hlt : id < parent) (below : List Nat) :
    a.way? id below = a.way? parent (index :: below) := by
  rw [way?]
  split <;> simp_all

end Ways

/-! ### Arenas of forests -/

/-- The arena was made along with the forest. The last field says that a number says when a node was
made: tokens have theirs in the order of the walk, and all are smaller than the next one. -/
structure Holds (a : Arena) (forest : List Tree) : Prop where
  tokens : a.tokens.toList = (Tree.preorderList forest).filterMap Tree.leaf?
  distinct : (forest.map Tree.id).Nodup
  top : ∀ t ∈ forest, a.links[t.id]? = some .loose
  child : ∀ p ∈ Tree.preorderList forest, ∀ (i : Nat) (c : Tree), p.children[i]? = some c →
    a.links[c.id]? = some ⟨some p.id, i⟩
  ascending : (a.tokens.toList.map Leaf.id ++ [a.size]).Pairwise (· < ·)

theorem holds_empty : empty.Holds [] where
  tokens := rfl
  distinct := .nil
  top := by simp
  child := by simp [Tree.preorderList]
  ascending := by simp [empty]

/-- The number of the next node is a new one. -/
theorem nodup_concat {ids : List Nat} {n : Nat} (h : ids.Nodup) (hlt : ∀ id ∈ ids, id < n) :
    (ids ++ [n]).Nodup := by
  refine List.nodup_append.2 ⟨h, by simp, fun id hid m hm => ?_⟩
  cases List.mem_singleton.1 hm
  exact Nat.ne_of_lt (hlt id hid)

theorem ascending_succ {ids : List Nat} {n : Nat} (h : (ids ++ [n]).Pairwise (· < ·)) :
    (ids ++ [n + 1]).Pairwise (· < ·) := by
  rw [List.pairwise_append] at h ⊢
  refine ⟨h.1, List.pairwise_singleton .., fun id hid m hm => ?_⟩
  cases List.mem_singleton.1 hm
  exact Nat.lt_succ_of_lt (h.2.2 id hid n (List.mem_singleton_self n))

namespace Holds

theorem id_lt (h : a.Holds forest) : ∀ id ∈ forest.map Tree.id, id < a.size := by
  intro id hid
  obtain ⟨t, ht, rfl⟩ := List.mem_map.1 hid
  exact (Array.getElem?_eq_some_iff.1 (h.top t ht)).1

theorem addToken (h : a.Holds forest) (t : Token) :
    (a.addToken t).Holds (forest ++ [.token a.size t]) where
  tokens := by
    simp [Arena.addToken, h.tokens, Tree.preorderList_append, Tree.preorderList, Tree.preorder,
      Tree.leaf?]
  distinct := by
    rw [List.map_append]
    exact nodup_concat h.distinct h.id_lt
  top := by
    intro u hu
    rcases List.mem_append.1 hu with hu | hu
    · exact getElem?_push_of_some (h.top u hu) _
    · cases List.mem_singleton.1 hu
      exact Array.getElem?_push_size
  child := by
    intro p hp i c hc
    rw [Tree.preorderList_append, List.mem_append] at hp
    rcases hp with hp | hp
    · exact getElem?_push_of_some (h.child p hp i c hc) _
    · obtain rfl : p = .token a.size t := by simpa [Tree.preorderList, Tree.preorder] using hp
      cases hc
  ascending := by
    have hids : (a.addToken t).tokens.toList.map Leaf.id = a.tokens.toList.map Leaf.id ++ [a.size] := by
      simp [Arena.addToken]
    rw [hids, size_addToken, List.append_assoc]
    refine List.pairwise_append.2 ⟨(List.pairwise_append.1 h.ascending).1, by simp, ?_⟩
    intro id hid m hm
    have hlt := (List.pairwise_append.1 h.ascending).2.2 id hid a.size (List.mem_singleton_self _)
    simp only [List.cons_append, List.nil_append, List.mem_cons, List.not_mem_nil, or_false] at hm
    omega

theorem addTokens (h : a.Holds forest) (ts : List Token) :
    (a.addTokens ts).Holds (forest ++ leaves a.size ts) := by
  induction ts generalizing a forest with
  | nil => simpa [leaves] using h
  | cons t ts ih =>
      have hrest := ih (h.addToken t)
      rwa [size_addToken, List.append_assoc, List.singleton_append, ← leaves_cons] at hrest

/-- The nodes that become children had no parent yet, so no link of another node changes. -/
theorem addPhrase (h : a.Holds (low ++ high)) (kind : PhraseKind) (pos stop : Nat) :
    (a.addPhrase (high.map Tree.id)).Holds (low ++ [.phrase a.size kind pos stop high]) := by
  have hdistinct := h.distinct
  have hmade := h.id_lt
  rw [List.map_append] at hdistinct hmade
  obtain ⟨hlow, hhigh, hapart⟩ := List.nodup_append.1 hdistinct
  have hold {p c : Tree} {i : Nat} (hp : p ∈ Tree.preorderList (low ++ high))
      (hc : p.children[i]? = some c) :
      (a.addPhrase (high.map Tree.id)).links[c.id]? = some ⟨some p.id, i⟩ := by
    have hlink := h.child p hp i c hc
    refine getElem?_addPhrase_of_notMem hlink fun hmem => ?_
    obtain ⟨t, ht, hid⟩ := List.mem_map.1 hmem
    have hloose := h.top t (List.mem_append_right _ ht)
    rw [hid, hlink] at hloose
    cases hloose
  refine ⟨?_, ?_, ?_, ?_, ?_⟩
  · rw [Arena.addPhrase, h.tokens]
    simp [Tree.preorderList_append, Tree.preorderList, Tree.preorder, List.filterMap_cons, Tree.leaf?]
  · rw [List.map_append]
    exact nodup_concat hlow fun id hid => hmade id (List.mem_append_left _ hid)
  · intro t ht
    rcases List.mem_append.1 ht with ht | ht
    · refine getElem?_addPhrase_of_notMem (h.top t (List.mem_append_left _ ht)) fun hmem => ?_
      exact hapart t.id (List.mem_map_of_mem ht) t.id hmem rfl
    · cases List.mem_singleton.1 ht
      exact getElem?_addPhrase_size a (high.map Tree.id)
  · intro p hp i c hc
    rw [Tree.preorderList_append] at hp hold
    simp only [Tree.preorderList, Tree.preorder, List.append_nil, List.mem_append, List.mem_cons] at hp
    rcases hp with hp | rfl | hp
    · exact hold (List.mem_append_left _ hp) hc
    · have hid : (high.map Tree.id)[i]? = some c.id := by
        rw [List.getElem?_map]
        exact congrArg (Option.map Tree.id) hc
      exact getElem?_addPhrase hhigh (fun id h => hmade id (List.mem_append_right _ h)) hid
    · exact hold (List.mem_append_right _ hp) hc
  · rw [size_addPhrase]
    exact ascending_succ h.ascending

end Holds

end Arena

namespace Builder

variable {b b' : Builder}

/-- The arena of a builder holds its forest. -/
def Filed (b : Builder) : Prop := b.arena.Holds b.pending.toList

theorem filed_ofTokens (tokens : List Token) (sourceEnd : Nat) :
    (ofTokens tokens sourceEnd).Filed :=
  Arena.holds_empty

theorem Move.filed (h : Move b b') (hb : b.Filed) : b'.Filed := by
  cases h with
  | advance =>
      cases hahead : b.ahead with
      | nil => rwa [advance_nil hahead]
      | cons l rest =>
          rw [advance_cons hahead, Filed, Array.toList_append]
          exact hb.addTokens _
  | flush =>
      cases hahead : b.ahead with
      | nil =>
          rw [flush_nil hahead, Filed, Array.toList_append]
          exact hb.addTokens _
      | cons l rest =>
          rw [flush_cons hahead, Filed, Array.toList_append]
          exact hb.addTokens _
  | report p => rwa [report_eq]
  | finish kind mark =>
      rw [Filed, ← List.take_append_drop mark b.pending.toList] at hb
      rw [Filed, finish_arena, finish_pending_toList]
      exact hb.addPhrase kind _ _
  | level => exact hb

end Builder

end ArrayShapes.Syntax
