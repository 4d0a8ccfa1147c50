import ArrayShapes.Inference.Comment
import ArrayShapes.Proofs.Syntax.Arena
import ArrayShapes.Proofs.Syntax.Attachment.Statement

/-!
The doc comment of a declaration. It is looked for among the siblings in front of the declaration, and
where no problem is found in the source that is the same as looking back through its tokens.
-/

namespace ArrayShapes

/-- Blank text and plain comments. -/
def TokenKind.isSpacing : TokenKind → Bool
  | .whitespace | .comment => true
  | _ => false

theorem TokenKind.isSpacing_of_isTrivia {k : TokenKind} (h : k.isTrivia = false) :
    k.isSpacing = false := by
  cases k <;> first | rfl | cases h

/-- The last token that is neither blank text nor a plain comment. -/
def lastToken? (ts : List Token) : Option Token := ts.reverse.find? (!·.kind.isSpacing)

namespace Syntax

/-! ### Looking back -/

namespace Tree

/-- The last node that is neither blank text nor a plain comment. -/
def lastNode? (L : List Tree) : Option Tree := L.reverse.find? (!·.tokenKind?.any TokenKind.isSpacing)

variable {inList : Bool} {L L' front blanks : List Tree} {ts us : List Token}

theorem lastToken?_append : lastToken? (ts ++ us) = (lastToken? us).or (lastToken? ts) := by
  simp [lastToken?, List.find?_append]

theorem lastNode?_append : lastNode? (L ++ L') = (lastNode? L').or (lastNode? L) := by
  simp [lastNode?, List.find?_append]

theorem Ends.lastToken?_eq (h : Ends ts) : ∃ t, lastToken? ts = some t ∧ t.isTrivia = false := by
  obtain ⟨t, hlast, ht⟩ := h
  obtain ⟨ts, rfl⟩ := List.getLast?_eq_some_iff.1 hlast
  have hkind : t.kind.isSpacing = false := TokenKind.isSpacing_of_isTrivia ht
  exact ⟨t, by simp [lastToken?, hkind], ht⟩

/-- The last of closed nodes is a phrase, or a token that is not blank. -/
theorem Closed.lastNode?_eq (h : Closed L) : ∃ t, lastNode? L = some t ∧ t.isTrivia = false := by
  rcases L.eq_nil_or_concat with rfl | ⟨front, t, rfl⟩
  · exact absurd rfl h.ne_nil
  · cases t with
    | phrase id kind pos stop cs =>
        exact ⟨.phrase id kind pos stop cs, by simp [lastNode?, tokenKind?], rfl⟩
    | token id t =>
        obtain ⟨u, hlast, hu⟩ := h
        obtain rfl : t = u := by simpa [tokensList_append, tokensList, tokens] using hlast
        have hkind : t.kind.isSpacing = false := TokenKind.isSpacing_of_isTrivia hu
        exact ⟨.token id t, by simp [lastNode?, tokenKind?, hkind], hu⟩

/-- In blank text both ways of looking back find the same. -/
theorem lastToken?_tokensList (hblanks : ∀ x ∈ blanks, x.isTrivia = true) :
    lastToken? (tokensList blanks) = (lastNode? blanks).bind token? := by
  induction blanks with
  | nil => rfl
  | cons x blanks ih =>
      have hrest : ∀ y ∈ blanks, y.isTrivia = true := fun y hy => hblanks y (.tail _ hy)
      obtain ⟨id, t, rfl, -⟩ := eq_token_of_isTrivia (hblanks x (.head _))
      have hone : lastToken? [t] = (lastNode? [.token id t]).bind token? := by
        cases hkind : t.kind.isSpacing <;> simp [lastToken?, lastNode?, tokenKind?, token?, hkind]
      rw [tokensList, tokens, lastToken?_append, ih hrest, hone,
        ← List.singleton_append (l := blanks), lastNode?_append]
      cases hlast : lastNode? blanks with
      | none => rfl
      | some y =>
          have hy : y ∈ blanks := List.mem_reverse.1 (List.mem_of_find?_eq_some hlast)
          obtain ⟨id', u, rfl, -⟩ := eq_token_of_isTrivia (hrest y hy)
          rfl

/-- Where a declaration may follow, looking back through the siblings and looking back through the
tokens end at the same doc comment. -/
theorem Admits.filter_lastToken? (h : Admits inList L) (hts : inList = true → ts = [] ∨ Ends ts) :
    (lastToken? (ts ++ tokensList L)).filter (·.kind == .documentComment) =
      ((lastNode? L).filter (·.tokenKind? == some .documentComment)).bind token? := by
  obtain ⟨front, blanks, rfl, hblanks, hfront⟩ := h
  rw [tokensList_append, ← List.append_assoc, lastToken?_append, lastNode?_append,
    lastToken?_tokensList hblanks]
  cases hlast : lastNode? blanks with
  | some x =>
      have hx : x ∈ blanks := List.mem_reverse.1 (List.mem_of_find?_eq_some hlast)
      obtain ⟨id, t, rfl, -⟩ := eq_token_of_isTrivia (hblanks x hx)
      cases hkind : t.kind == .documentComment <;> simp [token?, tokenKind?, Option.filter, hkind]
  | none =>
      -- what is in front ends in something that is not blank, if there is anything
      have hnode : ∀ t, lastNode? front = some t → t.isTrivia = false := by
        intro t ht
        rcases hfront with hclosed | ⟨-, rfl⟩
        · obtain ⟨u, hu, htrivia⟩ := hclosed.lastNode?_eq
          cases ht.symm.trans hu
          exact htrivia
        · cases ht
      have htoken : ∀ t, lastToken? (ts ++ tokensList front) = some t → t.isTrivia = false := by
        intro t ht
        have hends : ts ++ tokensList front = [] ∨ Ends (ts ++ tokensList front) := by
          rcases hfront with hclosed | ⟨hlist, rfl⟩
          · exact .inr (Ends.append hclosed)
          · simpa [tokensList] using hts hlist
        rcases hends with hnil | hends
        · rw [hnil] at ht
          cases ht
        · obtain ⟨u, hu, htrivia⟩ := hends.lastToken?_eq
          cases ht.symm.trans hu
          exact htrivia
      rw [Option.bind_none, Option.none_or, Option.none_or, Option.filter_eq_none_iff.2,
        Option.filter_eq_none_iff.2, Option.bind_none]
      · intro t ht hkind
        have htrivia := hnode t ht
        rw [isTrivia, eq_of_beq hkind] at htrivia
        cases htrivia
      · intro t ht hkind
        have htrivia := htoken t ht
        rw [Token.isTrivia, eq_of_beq hkind] at htrivia
        cases htrivia

end Tree

/-! ### Tokens in front of a node -/

/-- The tokens of the document in front of a place. -/
def Place.tokensBefore : Place → List Token
  | .root => []
  | .inside _ place before _ => place.tokensBefore ++ Tree.tokensList before.reverse

namespace Node

variable {number : Nat} {uri text : String} {n p c : Node}

theorem map_tree_siblingsBefore (d : Document) (parent : Tree) (place : Place)
    (trees after : List Tree) : (siblingsBefore d parent place trees after).map tree = trees := by
  induction trees generalizing after with
  | nil => rfl
  | cons t ts ih => simp [siblingsBefore, ih]

theorem tokensBefore_of_mem_children (h : c ∈ p.children) :
    c.place.tokensBefore =
      p.place.tokensBefore ++ Tree.tokensList (c.preceding.reverse.map tree) := by
  obtain ⟨before, after, -, hc⟩ := exists_place_of_mem_children h
  rw [hc, preceding, List.map_reverse, map_tree_siblingsBefore]
  rfl

theorem tokens_of_mem_children (h : c ∈ p.children) :
    ∃ rest, p.tree.tokens =
      Tree.tokensList (c.preceding.reverse.map tree) ++ c.tree.tokens ++ rest := by
  have hchildren := tree_children_eq_of_mem h
  cases hp : p.tree with
  | token => simp [hp, Tree.children] at hchildren
  | phrase id kind pos stop cs =>
      rw [hp, Tree.children] at hchildren
      refine ⟨Tree.tokensList (c.following.map tree), ?_⟩
      rw [Tree.tokens, hchildren, Tree.tokensList_append, Tree.tokensList]
      simp

theorem exists_tokens_eq (hn : n ∈ (Document.parse number uri text).root.descendants) :
    ∃ rest, (scan text).tokens.toList = n.place.tokensBefore ++ n.tree.tokens ++ rest := by
  refine descendants_induction (P := fun n => ∃ rest, (scan text).tokens.toList =
    n.place.tokensBefore ++ n.tree.tokens ++ rest) ?_ (fun p _ hp c hc => ?_) n hn
  · refine ⟨[], ?_⟩
    rw [← Document.tokens_tree number uri text]
    simp [Place.tokensBefore, Document.root]
  · obtain ⟨rest, hrest⟩ := hp
    obtain ⟨rest', hrest'⟩ := tokens_of_mem_children hc
    refine ⟨rest' ++ rest, ?_⟩
    rw [hrest, hrest', tokensBefore_of_mem_children hc]
    simp

/-- Tokens stand in order. -/
theorem tokensBefore_eq_filter {first : Token}
    (hn : n ∈ (Document.parse number uri text).root.descendants)
    (hfirst : n.tree.tokens.head? = some first) :
    n.place.tokensBefore = (scan text).tokens.toList.filter (·.pos < first.pos) := by
  obtain ⟨rest, htokens⟩ := exists_tokens_eq hn
  obtain ⟨us, hus⟩ := List.head?_eq_some_iff.1 hfirst
  rw [hus, List.append_assoc, List.cons_append] at htokens
  have htiles := (Scan.scan_reads text).tiles
  rw [htokens] at htiles ⊢
  obtain ⟨mid, hbefore, hafter⟩ := htiles.of_append
  have hmid : first.pos = mid := hafter.1
  rw [List.filter_append, List.filter_eq_self.2, List.filter_eq_nil_iff.2, List.append_nil]
  · intro t ht
    have hle := hafter.le_of_mem (List.mem_append_left _ (List.mem_map_of_mem ht))
    simp; omega
  · intro t ht
    have hlt := hbefore.pos_lt_of_mem ht
    simp; omega

/-! ### Where declarations stand -/

/-- The nodes below are neat, and a list has nothing in front of it or what is closed. -/
structure Stands (n : Node) : Prop where
  neat : ∀ t ∈ n.tree.preorder, t.Neat
  list : n.tree.isListPhrase = true → n.place.tokensBefore = [] ∨ Tree.Ends n.place.tokensBefore

theorem stands_of_isTrivia (h : n.tree.isTrivia = true) : n.Stands := by
  obtain ⟨id, t, htree, -⟩ := Tree.eq_token_of_isTrivia h
  constructor
  · simp [htree, Tree.preorder, Tree.Neat]
  · simp [htree, Tree.isListPhrase, Tree.phraseKind?]

/-- The children of the root: a list at the start, and blank text. -/
theorem stands_of_rooted (hp : p.tree.Rooted) (hroot : p.place = .root) (hc : c ∈ p.children) :
    c.Stands ∧ c.tree.isDeclaration = false := by
  obtain ⟨id, pos, stop, list, blanks, htree, hlist, hneat, hblanks⟩ := hp
  have hchildren := tree_children_eq_of_mem hc
  rw [htree, Tree.children] at hchildren
  cases hpre : c.preceding.reverse.map tree with
  | nil =>
      rw [hpre, List.nil_append, List.cons.injEq] at hchildren
      rw [hchildren.1] at hlist hneat
      refine ⟨⟨hneat, fun _ => .inl ?_⟩, ?_⟩
      · rw [tokensBefore_of_mem_children hc, hroot, hpre]
        rfl
      · exact Tree.isDeclaration_of_isListPhrase hlist
  | cons x pre =>
      rw [hpre, List.cons_append, List.cons.injEq] at hchildren
      have htrivia : c.tree.isTrivia = true := hblanks _ (by simp [hchildren.2])
      refine ⟨stands_of_isTrivia htrivia, ?_⟩
      obtain ⟨id', t, htoken, -⟩ := Tree.eq_token_of_isTrivia htrivia
      rw [htoken]
      rfl

theorem Stands.attached (hp : p.Stands) (hc : c ∈ p.children) :
    (c.tree.isDeclaration = true →
      c.tree.tokens ≠ [] ∧ Tree.Admits p.tree.isListPhrase (c.preceding.reverse.map tree)) ∧
    (c.tree.isListPhrase = true → Tree.Closed (c.preceding.reverse.map tree)) := by
  have hneat : p.tree.Neat := hp.neat _ (by rw [Tree.preorder_eq]; exact .head _)
  have hchildren := tree_children_eq_of_mem hc
  cases htree : p.tree with
  | token => simp [htree, Tree.children] at hchildren
  | phrase id kind pos stop cs =>
      rw [htree] at hneat hchildren
      exact hneat _ _ _ hchildren

theorem Stands.child (hp : p.Stands) (hc : c ∈ p.children) : c.Stands := by
  refine ⟨fun t ht => hp.neat t ?_, fun hlist => .inr ?_⟩
  · have hmem : c.tree ∈ p.tree.children := by
      rw [← map_tree_children]
      exact List.mem_map_of_mem hc
    rw [Tree.preorder_eq]
    exact .tail _ (Tree.mem_preorderList.2 ⟨c.tree, hmem, ht⟩)
  · rw [tokensBefore_of_mem_children hc]
    exact Tree.Ends.append ((hp.attached hc).2 hlist)

/-- Without problems every node but the root stands so. -/
theorem stands_of_mem (hroot : (Document.parse number uri text).tree.Rooted)
    (hn : n ∈ (Document.parse number uri text).root.descendants) :
    n = (Document.parse number uri text).root ∨ n.Stands := by
  refine descendants_induction (P := fun n => n = (Document.parse number uri text).root ∨ n.Stands)
    (.inl rfl) (fun p _ hp c hc => .inr ?_) n hn
  rcases hp with rfl | hp
  · exact (stands_of_rooted hroot rfl hc).1
  · exact hp.child hc

/-- Looking back from a declaration through its siblings and through the tokens. -/
theorem filter_lastToken?_of_isDeclaration (hroot : (Document.parse number uri text).tree.Rooted)
    (hn : n ∈ (Document.parse number uri text).root.descendants)
    (hdeclaration : n.tree.isDeclaration = true) :
    n.tree.tokens ≠ [] ∧
    (lastToken? n.place.tokensBefore).filter (·.kind == .documentComment) =
      ((Tree.lastNode? (n.preceding.reverse.map tree)).filter
        (·.tokenKind? == some .documentComment)).bind Tree.token? := by
  rcases eq_or_mem_children hn with rfl | ⟨p, hp, hc⟩
  · obtain ⟨id, pos, stop, list, blanks, htree, -⟩ := hroot
    rw [Document.root, htree] at hdeclaration
    cases hdeclaration
  · rcases stands_of_mem hroot hp with rfl | hp
    · have hnot := (stands_of_rooted hroot rfl hc).2
      rw [hnot] at hdeclaration
      cases hdeclaration
    · obtain ⟨hne, hadmits⟩ := (hp.attached hc).1 hdeclaration
      refine ⟨hne, ?_⟩
      rw [tokensBefore_of_mem_children hc]
      exact hadmits.filter_lastToken? hp.list

/-- No two tokens start at the same place, so a token is the leaf of one node only. -/
theorem eq_of_token?_eq {m : Node} {t : Token}
    (hn : n ∈ (Document.parse number uri text).root.descendants)
    (hm : m ∈ (Document.parse number uri text).root.descendants)
    (hnt : n.tree.token? = some t) (hmt : m.tree.token? = some t) : n = m := by
  obtain ⟨rest, hrest⟩ :=
    exists_tokens_eq (self_mem_descendants (Document.parse number uri text).root)
  have hpairwise := (List.pairwise_append.1 (Scan.scan_reads text).tiles.pairwise_pos).1
  rw [hrest, List.map_append, List.map_append] at hpairwise
  have htokens := (List.pairwise_append.1 (List.pairwise_append.1 hpairwise).1).2.1
  rw [List.pairwise_map, ← filterMap_token?_descendants, List.pairwise_filterMap] at htokens
  rw [List.pairwise_iff_getElem] at htokens
  obtain ⟨i, hi, rfl⟩ := List.getElem_of_mem hn
  obtain ⟨j, hj, rfl⟩ := List.getElem_of_mem hm
  rcases Nat.lt_trichotomy i j with hlt | rfl | hlt
  · exact absurd (htokens i j hi hj hlt t hnt t hmt) (Nat.lt_irrefl _)
  · rfl
  · exact absurd (htokens j i hj hi hlt t hmt t hnt) (Nat.lt_irrefl _)

end Node

theorem Document.rooted_of_diagnostics {number : Nat} {uri text : String}
    (h : (Document.parse number uri text).diagnostics = []) :
    (Document.parse number uri text).tree.Rooted := by
  obtain ⟨b, hparse, hrecords, hmeets⟩ :=
    Document.exists_builder_of_meets Grammar.script_meets number uri text rfl
  have hclean := ((Document.diagnostics_eq_nil_iff hparse hrecords).1 h).2
  obtain ⟨blanks, root, heq, hroot⟩ := hmeets hclean
  rcases List.append_eq_singleton_iff.1 heq.symm with ⟨-, hone⟩ | ⟨-, hone⟩
  · cases hone
    exact hroot
  · cases hone

end Syntax

namespace Inference

open Syntax

variable {number : Nat} {uri text : String} {n d comment : Node}

theorem map_tree_precedingComment? (n : Node) :
    (precedingComment? n).map Node.tree =
      (Tree.lastNode? (n.preceding.reverse.map Node.tree)).filter
        (·.tokenKind? == some .documentComment) := by
  have hspacing : (fun m : Node => !m.isToken .whitespace && !m.isToken .comment) =
      (!·.tokenKind?.any TokenKind.isSpacing) ∘ Node.tree := by
    funext m
    rw [Function.comp_apply, Node.isToken, Node.isToken, Node.tokenKind?]
    cases m.tree.tokenKind? with
    | none => rfl
    | some k => cases k <;> rfl
  rw [precedingComment?, hspacing, Tree.lastNode?, ← List.map_reverse, List.reverse_reverse,
    List.find?_map]
  cases n.preceding.find? ((!·.tokenKind?.any TokenKind.isSpacing) ∘ Node.tree) with
  | none => rfl
  | some m =>
      by_cases hkind : m.tree.tokenKind? = some .documentComment <;>
        simp [Node.isToken, Node.tokenKind?, Option.filter, hkind]

theorem mem_descendants_of_precedingComment?
    (hd : d ∈ (Document.parse number uri text).root.descendants)
    (h : precedingComment? d = some comment) :
    comment ∈ (Document.parse number uri text).root.descendants := by
  obtain ⟨previous, hfind, hprevious⟩ := Option.bind_eq_some_iff.1 h
  have hmem := List.mem_of_find?_eq_some hfind
  split at hprevious
  · cases hprevious
    rcases Node.eq_or_mem_children hd with rfl | ⟨p, hp, hc⟩
    · cases hmem
    · refine Node.descendants_trans hp (Node.mem_descendants_iff.2 (.inr ⟨comment, ?_, ?_⟩))
      · rw [Node.children_eq_of_mem hc]
        exact List.mem_append_left _ (List.mem_reverse.2 hmem)
      · exact Node.self_mem_descendants comment
  · cases hprevious

theorem exists_token?_of_precedingComment? (h : precedingComment? d = some comment) :
    ∃ t, comment.tree.token? = some t := by
  have htree := map_tree_precedingComment? d
  rw [h, Option.map_some] at htree
  have hkind := (Option.filter_eq_some_iff.1 htree.symm).2
  cases hcomment : comment.tree with
  | token id t => exact ⟨t, rfl⟩
  | phrase =>
      rw [hcomment] at hkind
      cases hkind

theorem commentOf?_of_isDeclaration (h : d.tree.isDeclaration = true) :
    commentOf? d = precedingComment? d := by
  have hclosure : d.isPhraseIn [.anonymousFunctionCreationExpression, .arrowFunction] = false := by
    rw [Node.isPhraseIn, Node.phraseKind?]
    rw [Tree.isDeclaration] at h
    cases hkind : d.tree.phraseKind? with
    | none => rfl
    | some k =>
        rw [hkind] at h
        cases k <;> first | rfl | cases h
  rw [commentOf?, hclosure]
  cases precedingComment? d with
  | none => rfl
  | some m => rfl

/-- In a source without problems a doc comment belongs to the declaration that it precedes: a
declaration has a doc comment if and only if the nearest token in front of it that is neither blank
text nor a plain comment is one, and then it is that token. -/
theorem commentOf?_eq_some_iff (number : Nat) (uri text : String)
    (hclean : (Document.parse number uri text).diagnostics = []) :
    ∀ d ∈ (Document.parse number uri text).root.descendants, d.tree.isDeclaration = true →
      ∃ first, d.tree.tokens.head? = some first ∧
        ∀ comment, commentOf? d = some comment ↔
          comment ∈ (Document.parse number uri text).root.descendants ∧
          ∃ t, comment.tree.token? = some t ∧ t.kind = .documentComment ∧
            lastToken? ((scan text).tokens.toList.filter (·.pos < first.pos)) = some t := by
  intro d hd hdeclaration
  have hroot := Document.rooted_of_diagnostics hclean
  obtain ⟨hne, hsame⟩ := Node.filter_lastToken?_of_isDeclaration hroot hd hdeclaration
  obtain ⟨first, us, htokens⟩ := List.exists_cons_of_ne_nil hne
  have hfirst : d.tree.tokens.head? = some first := by rw [htokens]; rfl
  refine ⟨first, hfirst, fun comment => ?_⟩
  rw [Node.tokensBefore_eq_filter hd hfirst, ← map_tree_precedingComment?] at hsame
  rw [commentOf?_of_isDeclaration hdeclaration]
  constructor
  · intro hcomment
    refine ⟨mem_descendants_of_precedingComment? hd hcomment, ?_⟩
    obtain ⟨t, htoken⟩ := exists_token?_of_precedingComment? hcomment
    rw [hcomment, Option.map_some, Option.bind_some, htoken, Option.filter_eq_some_iff] at hsame
    exact ⟨t, htoken, eq_of_beq hsame.2, hsame.1⟩
  · rintro ⟨hmem, t, htoken, hkind, hlast⟩
    rw [hlast, Option.filter_some, if_pos (by simp [hkind]), Option.bind_map] at hsame
    obtain ⟨comment', hcomment', htoken'⟩ := Option.bind_eq_some_iff.1 hsame.symm
    have hmem' := mem_descendants_of_precedingComment? hd hcomment'
    rw [Node.eq_of_token?_eq hmem hmem' htoken htoken']
    exact hcomment'

/-- The doc comment of an abstract method stands in front of another comment. -/
theorem commentOf?_abstract_method :
    ∃ d ∈ (Document.parse 0 ""
        "<?php class A \x7b /** m */ // n\n abstract function f(); \x7d").root.descendants,
      (d.label, d.tree.isDeclaration, (commentOf? d).map Node.label) =
        ("MethodDeclaration@31..53", true, some "DocumentComment@16..24") ∧
      ∃ first, d.tree.tokens.head? = some first ∧
        ∀ comment, commentOf? d = some comment → ∃ t, comment.tree.token? = some t ∧
          lastToken? ((scan "<?php class A \x7b /** m */ // n\n abstract function f(); \x7d")
            |>.tokens.toList.filter (·.pos < first.pos)) = some t := by
  have hclean : (Document.parse 0 ""
      "<?php class A \x7b /** m */ // n\n abstract function f(); \x7d").diagnostics = [] := by decide +kernel
  have hlabel : ((Document.parse 0 ""
      "<?php class A \x7b /** m */ // n\n abstract function f(); \x7d").root.descendants.map fun d =>
        (d.label, d.tree.isDeclaration, (commentOf? d).map Node.label))[19]? =
      some ("MethodDeclaration@31..53", true, some "DocumentComment@16..24") := by decide +kernel
  obtain ⟨d, hd, hlabel⟩ := List.mem_map.1 (List.mem_of_getElem? hlabel)
  have hdeclaration : d.tree.isDeclaration = true := congrArg (·.2.1) hlabel
  obtain ⟨first, hfirst, hcomment⟩ := commentOf?_eq_some_iff 0 "" _ hclean d hd hdeclaration
  refine ⟨d, hd, hlabel, first, hfirst, fun comment h => ?_⟩
  obtain ⟨-, t, htoken, -, hlast⟩ := (hcomment comment).1 h
  exact ⟨t, htoken, hlast⟩

end Inference

end ArrayShapes
