import ArrayShapes.Proofs.Doc.Expansion
import ArrayShapes.Proofs.Inference.Comment
import ArrayShapes.Proofs.Project.History
import ArrayShapes.Proofs.Syntax.Coverage

/-!
Aliases that are imported from the doc comment of a class. An import is expanded twice: by the
aliases of that comment, starting from the first definition of the name there, and again by those of
the importing document. So it means what the exporting document says it does exactly if no name that
is left after the first expansion has a meaning of its own in the importing document.
-/

namespace ArrayShapes

namespace Doc

open Relation

/-! ### Aliases and their definitions -/

/-- Aliases without one of them. -/
def without (name : String) (lookup : String → Option Shape) : String → Option Shape :=
  fun other => if other = name then none else lookup other

variable {lookup : String → Option Shape} {name : String} {s target : Shape} {e : Expansion}

/-- An alias is expanded as its definition is by aliases that agree on all it leads to, where the
alias itself is none any more. -/
theorem exists_expands_of_alias (lookup' : String → Option Shape) (known : lookup name = some target)
    (hlimit : reportsLimit lookup (.plain name) = false)
    (hagree : ∀ first ∈ target.names, ∀ other, ReflTransGen (Refers lookup') first other →
      (lookup' other = lookup other ∧ other ≠ name) ∨ (lookup' other = none ∧ other = name)) :
    ∃ e, Expands lookup' target e ∧ e.nesting ≤ Limits.aliases.depth ∧
      e.attempts ≤ Limits.aliases.entries ∧ expand lookup (.plain name) = e.shape := by
  obtain ⟨e, he, hnesting, hattempts⟩ := exists_expands hlimit
  have hshape := he.expand_eq hnesting hattempts
  cases expands_plain_iff.1 he with
  | unknown unknown => simp [known] at unknown
  | kept _ mem => cases mem
  | @expanded _ _ target' parts known' new inner =>
      obtain rfl : target = target' := by simpa [known] using known'
      have hinner (other) (hother : other ∈ target.names) :
          ∃ e', Unfolds lookup' [] other e' ∧ e'.Refines (parts other) := by
        apply (inner other hother).transfer
        intro x hx
        rcases hagree other hother x hx with ⟨hx, hne⟩ | ⟨hx, rfl⟩
        · exact .inl ⟨hx, by simp [hne]⟩
        · exact .inr ⟨hx, List.mem_cons_self⟩
      choose! parts' hparts' hrefines using hinner
      have hof := Expansion.refines_of hrefines
      simp only at hnesting hattempts
      refine ⟨_, ⟨parts', hparts', rfl⟩, ?_, ?_, hshape.trans hof.shape.symm⟩
      · rw [hof.nesting]
        omega
      · have := hof.attempts
        omega

/-- Within the limits a shape is left as it is exactly if each name in it is. -/
theorem Expands.expand_eq_self_iff (h : Expands lookup s e)
    (hnesting : e.nesting ≤ Limits.aliases.depth) (hattempts : e.attempts ≤ Limits.aliases.entries) :
    expand lookup s = s ↔ ∀ name ∈ s.names, expand lookup (.plain name) = .plain name := by
  have hwhole := h.expand_eq hnesting hattempts
  obtain ⟨parts, hparts, rfl⟩ := h
  have hpart (name) (hname : name ∈ s.names) : expand lookup (.plain name) = (parts name).shape :=
    (expands_plain_iff.2 (hparts name hname)).expand_eq
      ((Expansion.nesting_le_of_mem hname).trans hnesting)
      ((Expansion.attempts_le_of_mem hname).trans hattempts)
  calc
    expand lookup s = s ↔ (s.replace fun name => (parts name).shape) = s.replace .plain := by
      rw [hwhole, Shape.replace_self]
      rfl
    _ ↔ ∀ name ∈ s.names, (parts name).shape = .plain name := Shape.replace_eq_replace_iff
    _ ↔ _ := forall₂_congr fun name hname => by rw [hpart name hname]

end Doc

namespace Inference

open Syntax Project

/-! ### Scopes -/

section Scopes

variable {store : Store} {scope : AliasScope} {raw name : String} {s : Shape}

/-- What some imports define, the latest first. -/
def importScope (store : Store) (imports : List Doc.Import) : AliasScope :=
  (imports.filterMap fun i => (imported? store i).map fun s => (i.localName, s)).reverse

theorem find?_addComment (store : Store) (scope : AliasScope) (raw name : String) :
    (addComment store scope raw).find? name =
      ((importScope store (Doc.imports raw)).find? name).or
        (((AliasScope.ofComment raw).find? name).or (scope.find? name)) := by
  rw [AliasScope.find?, addComment, List.lookup_append, List.lookup_append]
  rfl

theorem find?_importScope_eq_none {imports : List Doc.Import}
    (h : ∀ i ∈ imports, i.localName ≠ name) : (importScope store imports).find? name = none := by
  rw [AliasScope.find?, importScope, List.lookup_eq_none_iff]
  intro p hp
  obtain ⟨i, hi, s, -, rfl⟩ : ∃ i ∈ imports, ∃ s, imported? store i = some s ∧
      (i.localName, s) = p := by simpa using hp
  simpa using (h i hi).symm

theorem find?_ofComment_eq_none (h : ∀ a ∈ Doc.aliases raw, a.name ≠ name) :
    (AliasScope.ofComment raw).find? name = none := by
  rw [AliasScope.find?, AliasScope.ofComment, List.lookup_eq_none_iff]
  intro p hp
  obtain ⟨a, ha, rfl⟩ : ∃ a ∈ Doc.aliases raw, (a.name, a.shape) = p := by simpa using hp
  simpa using (h a ha).symm

/-- Doc comments that do not define a name leave it as it was. -/
theorem find?_foldl_addComment {comments : List Token}
    (h : ∀ t ∈ comments, (∀ a ∈ Doc.aliases t.text, a.name ≠ name) ∧
      ∀ i ∈ Doc.imports t.text, i.localName ≠ name) :
    (comments.foldl (fun scope t => addComment store scope t.text) scope).find? name =
      scope.find? name := by
  induction comments generalizing scope with
  | nil => rfl
  | cons t comments ih =>
      obtain ⟨ht, hrest⟩ := List.forall_mem_cons.1 h
      rw [List.foldl_cons, ih hrest, find?_addComment, find?_importScope_eq_none ht.2,
        find?_ofComment_eq_none ht.1, Option.none_or, Option.none_or]

/-- An import is the last definition of its local name before a node: no import after it in its
comment gives the name, and no later comment defines or imports it. -/
def IsLastDefinition (n : Node) (i : Doc.Import) : Prop :=
  ∃ earlier t later before after,
    n.document.comments.takeWhile (·.pos < n.pos) = earlier ++ t :: later ∧
    Doc.imports t.text = before ++ i :: after ∧
    (∀ j ∈ after, j.localName ≠ i.localName) ∧
    ∀ u ∈ later, (∀ a ∈ Doc.aliases u.text, a.name ≠ i.localName) ∧
      ∀ j ∈ Doc.imports u.text, j.localName ≠ i.localName

theorem find?_aliasesAt_of_isLastDefinition {n : Node} {i : Doc.Import}
    (h : IsLastDefinition n i) (himported : imported? store i = some s) :
    (aliasesAt store n).find? i.localName = some s := by
  obtain ⟨earlier, t, later, before, after, hcomments, himports, hafter, hlater⟩ := h
  have hfound : (importScope store (Doc.imports t.text)).find? i.localName = some s := by
    have hsplit : importScope store (Doc.imports t.text) =
        importScope store after ++ (i.localName, s) :: importScope store before := by
      simp [importScope, himports, himported]
    rw [hsplit, AliasScope.find?, List.lookup_append, ← AliasScope.find?,
      find?_importScope_eq_none hafter]
    simp
  rw [aliasesAt, hcomments, List.foldl_append, List.foldl_cons, find?_foldl_addComment hlater,
    find?_addComment, hfound, Option.some_or]

end Scopes

/-! ### The exporting document -/

section Exports

variable {sources : List (String × String)} {cls comment : Node} {t : Token} {name : String}

theorem exists_parse_of_mem_classes (hcls : cls ∈ (Store.ofSources sources).classes name) :
    ∃ number uri text, cls ∈ (Document.parse number uri text).root.descendants ∧
      cls.tree.isDeclaration = true := by
  have hclasses : (Store.ofSources sources).classes name =
      (Store.ofSources sources).documents.flatMap (declared .cls (baseName name)) :=
    Store.map_declaration_found sources .cls (baseName name)
  rw [hclasses, Store.documents_ofSources] at hcls
  obtain ⟨d, hd, hcls⟩ := List.mem_flatMap.1 hcls
  obtain ⟨number, _, rfl⟩ := List.mem_mapIdx.1 hd
  obtain ⟨hmem, hdeclares⟩ := List.mem_filter.1 hcls
  refine ⟨_, _, _, hmem, ?_⟩
  have hkind := (Bool.and_eq_true_iff.1 hdeclares).1
  rw [Node.isPhraseIn, Node.phraseKind?] at hkind
  rw [Tree.isDeclaration]
  cases hphrase : cls.tree.phraseKind? with
  | none => simp [hphrase] at hkind
  | some k =>
      rw [hphrase] at hkind
      cases k <;> first | rfl | cases hkind

theorem isToken_of_precedingComment? {d : Node} (h : precedingComment? d = some comment) :
    comment.isToken .documentComment = true := by
  obtain ⟨previous, -, hprevious⟩ := Option.bind_eq_some_iff.1 h
  split at hprevious
  · cases hprevious
    assumption
  · cases hprevious

/-- The doc comment of a class is one of the doc comments of its document. -/
theorem text_of_commentOf? (hcls : cls ∈ (Store.ofSources sources).classes name)
    (hcomment : commentOf? cls = some comment) (honly : cls.document.comments = [t]) :
    comment.text = t.text := by
  obtain ⟨number, uri, text, hmem, hdeclaration⟩ := exists_parse_of_mem_classes hcls
  rw [commentOf?_of_isDeclaration hdeclaration] at hcomment
  have hin := mem_descendants_of_precedingComment? hmem hcomment
  have hkind := isToken_of_precedingComment? hcomment
  cases htree : comment.tree with
  | phrase => simp [Node.isToken, Node.tokenKind?, htree, Tree.tokenKind?] at hkind
  | token id u =>
      have hscan : u ∈ (scan text).tokens.toList :=
        Node.mem_scan_of_mem_tokens hin (by simp [htree, Tree.tokens])
      have hu : u ∈ cls.document.comments := by
        rw [Node.document_of_mem_descendants hmem, Document.root, Document.comments_eq]
        refine List.mem_filter.2 ⟨hscan, ?_⟩
        simpa [Node.isToken, Node.tokenKind?, htree, Tree.tokenKind?] using hkind
      obtain rfl : u = t := by simpa [honly] using hu
      have hslice := slice?_of_mem_scan hscan
      rw [Node.text, Node.pos, Node.stop, htree, Node.document_of_mem_descendants hin]
      exact congrArg (Option.getD · "") hslice

/-- An imported alias is the first definition of the name, expanded by all of them. -/
theorem imported?_eq_some {i : Doc.Import} {d : Doc.Alias}
    (hclass : (Store.ofSources sources).classes i.fromClass = [cls])
    (hcomment : commentOf? cls = some comment) (honly : cls.document.comments = [t])
    (hfirst : (Doc.aliases t.text).find? (·.name == i.name) = some d) :
    imported? (Store.ofSources sources) i =
      some ((AliasScope.ofComment t.text).expand d.shape) := by
  have htext := text_of_commentOf? (hclass ▸ List.mem_singleton_self cls) hcomment honly
  simp [imported?, hclass, hcomment, htext, hfirst]

/-- Behind the only doc comment of a document the aliases of this comment hold. -/
theorem aliasesAt_of_only {store : Store} {m : Node} (honly : m.document.comments = [t])
    (hpos : t.pos < m.pos) : aliasesAt store m = addComment store [] t.text := by
  simp [aliasesAt, honly, hpos]

/-- An alias whose definition leads to no import stands for what the comment alone makes of it. -/
theorem expand_exported {store : Store} {m : Node} {target : Shape}
    (honly : m.document.comments = [t]) (hpos : t.pos < m.pos)
    (hfound : (AliasScope.ofComment t.text).find? name = some target)
    (hacyclic : Doc.Acyclic (AliasScope.ofComment t.text).find? (.plain name))
    (hown : ∀ j ∈ Doc.imports t.text, ¬Relation.ReflTransGen
      (Doc.Refers (AliasScope.ofComment t.text).find?) name j.localName)
    (hlimit : Doc.reportsLimit (aliasesAt store m).find? (.plain name) = false) :
    (aliasesAt store m).expand (.plain name) = (AliasScope.ofComment t.text).expand target := by
  have hagree (other) (hother : Relation.ReflTransGen
      (Doc.Refers (AliasScope.ofComment t.text).find?) name other) :
      (AliasScope.ofComment t.text).find? other = (aliasesAt store m).find? other := by
    have himport (j) (hj : j ∈ Doc.imports t.text) : j.localName ≠ other :=
      fun heq => hown j hj (heq ▸ hother)
    rw [aliasesAt_of_only honly hpos, find?_addComment, find?_importScope_eq_none himport,
      Option.none_or]
    simp [AliasScope.find?]
  obtain ⟨e, he, hnesting, hattempts, hshape⟩ := Doc.exists_expands_of_alias
    (AliasScope.ofComment t.text).find? ((hagree name .refl).symm.trans hfound) hlimit
    (fun first hfirst other hother => by
      have hrefers : Doc.Refers (AliasScope.ofComment t.text).find? name first :=
        ⟨target, hfound, hfirst⟩
      refine .inl ⟨hagree other (.head hrefers hother), ?_⟩
      rintro rfl
      exact hacyclic other (by simp) other .refl (.head' hrefers hother))
  exact hshape.trans (he.expand_eq hnesting hattempts).symm

end Exports

open Relation in
/-- An imported name stands for the first definition that the doc comment of the class has for it,
expanded by that comment and then by the importing document, where the imported name itself is kept.
If the first definition is the last as well and the comment imports nothing that it leads to, this
is what the name stands for in the exporting document exactly if the importing document keeps each
name that is left there. -/
theorem expand_imported (sources : List (String × String)) (n m cls comment : Node) (t : Token)
    (i : Doc.Import) (d : Doc.Alias)
    (hclass : (Store.ofSources sources).classes i.fromClass = [cls])
    (hcomment : commentOf? cls = some comment) (honly : cls.document.comments = [t])
    (hdocument : m.document = cls.document) (hpos : t.pos < m.pos)
    (hfirst : (Doc.aliases t.text).find? (·.name == i.name) = some d)
    (hacyclic : Doc.Acyclic (AliasScope.ofComment t.text).find? (.plain i.name))
    (hlast : IsLastDefinition n i)
    (himporting : Doc.reportsLimit (aliasesAt (.ofSources sources) n).find? (.plain i.localName) =
      false)
    (hexporting : Doc.reportsLimit (aliasesAt (.ofSources sources) m).find? (.plain i.name) =
      false) :
    (aliasesAt (.ofSources sources) n).expand (.plain i.localName) =
        Doc.expand (Doc.without i.localName (aliasesAt (.ofSources sources) n).find?)
          ((AliasScope.ofComment t.text).expand d.shape) ∧
      ((AliasScope.ofComment t.text).find? i.name = some d.shape →
        (∀ j ∈ Doc.imports t.text, ¬ReflTransGen
          (Doc.Refers (AliasScope.ofComment t.text).find?) i.name j.localName) →
        ((aliasesAt (.ofSources sources) n).expand (.plain i.localName) =
            (aliasesAt (.ofSources sources) m).expand (.plain i.name) ↔
          ∀ name ∈ ((aliasesAt (.ofSources sources) m).expand (.plain i.name)).names,
            Doc.expand (Doc.without i.localName (aliasesAt (.ofSources sources) n).find?)
              (.plain name) = .plain name)) := by
  have hlocal := find?_aliasesAt_of_isLastDefinition hlast
    (imported?_eq_some hclass hcomment honly hfirst)
  obtain ⟨e, he, hnesting, hattempts, hshape⟩ := Doc.exists_expands_of_alias
    (Doc.without i.localName (aliasesAt (.ofSources sources) n).find?) hlocal himporting
    (fun _ _ other _ => by by_cases h : other = i.localName <;> simp [Doc.without, h])
  have htwice := hshape.trans (he.expand_eq hnesting hattempts).symm
  refine ⟨htwice, fun hfound hown => ?_⟩
  have hexported := expand_exported (hdocument ▸ honly) hpos hfound hacyclic hown hexporting
  rw [AliasScope.expand, htwice, hexported]
  exact he.expand_eq_self_iff hnesting hattempts

/-! ### A name that means something else in the importing document -/

def exportComment : String :=
  "/** @psalm-type M = list<Id>\n * @psalm-type N = array\x7bid: Id, all: M\x7d */"

def importComment : String :=
  "/** @psalm-type Id = string\n * @psalm-import-type N from C as L */"

def capturing : List (String × String) :=
  [("e.php", "<?php " ++ exportComment ++ " class C \x7b\x7d"),
    ("i.php", "<?php " ++ importComment ++ " function g() \x7b\x7d")]

/-- A record with the name `Id` and what else `N` leads to. -/
def exportedRow (all : Shape) : Shape := .record [(.str "id", .plain "Id"), (.str "all", all)] none

theorem aliases_exportComment : Doc.aliases exportComment =
    [⟨"M", .list (.plain "Id")⟩, ⟨"N", exportedRow (.plain "M")⟩] := by
  with_unfolding_all rfl

theorem imports_exportComment : Doc.imports exportComment = [] := by
  decide +kernel

theorem aliases_importComment : Doc.aliases importComment = [⟨"Id", .plain "string"⟩] := by
  with_unfolding_all rfl

theorem imports_importComment : Doc.imports importComment = [⟨"L", "N", "C"⟩] := by
  decide +kernel

theorem ofComment_exportComment : AliasScope.ofComment exportComment =
    [("N", exportedRow (.plain "M")), ("M", .list (.plain "Id"))] := by
  simp [AliasScope.ofComment, aliases_exportComment]

theorem acyclic_exportComment (s : Shape) :
    Doc.Acyclic (AliasScope.ofComment exportComment).find? s := by
  apply Doc.acyclic_of_rank fun
    | "N" => 2
    | "M" => 1
    | _ => 0
  rintro name other ⟨target, hlookup, hmem⟩
  rw [ofComment_exportComment, AliasScope.find?, List.lookup_cons, List.lookup_cons,
    List.lookup_nil] at hlookup
  split at hlookup
  case h_1 hname =>
    obtain rfl := eq_of_beq hname
    cases hlookup
    have hmem : other ∈ ["Id", "M"] := hmem
    rcases List.mem_pair.1 hmem with rfl | rfl <;> decide
  case h_2 =>
    split at hlookup
    case h_1 hname =>
      obtain rfl := eq_of_beq hname
      cases hlookup
      obtain rfl : other = "Id" := List.mem_singleton.1 hmem
      decide
    case h_2 => cases hlookup

theorem exists_exporting : ∃ cls comment, (Store.ofSources capturing).classes "C" = [cls] ∧
    commentOf? cls = some comment ∧
    cls.document.comments = [⟨.documentComment, 6, exportComment⟩] ∧ 6 < cls.pos := by
  have h : ((Store.ofSources capturing).classes "C").map (fun cls =>
      ((commentOf? cls).isSome, cls.document.comments, decide (6 < cls.pos))) =
      [(true, [⟨.documentComment, 6, exportComment⟩], true)] := by
    decide +kernel
  obtain ⟨cls, hclass, h⟩ := List.map_eq_singleton_iff.1 h
  simp only [Prod.mk.injEq, decide_eq_true_eq] at h
  obtain ⟨comment, hcomment⟩ := Option.isSome_iff_exists.1 h.1
  exact ⟨cls, comment, hclass, hcomment, h.2⟩

theorem exists_importing : ∃ n, (Store.ofSources capturing).declarations (.ofFunction "g") = [n] ∧
    n.document.comments.takeWhile (·.pos < n.pos) = [⟨.documentComment, 6, importComment⟩] := by
  have h : ((Store.ofSources capturing).declarations (.ofFunction "g")).map (fun n =>
      n.document.comments.takeWhile (·.pos < n.pos)) =
      [[⟨.documentComment, 6, importComment⟩]] := by
    decide +kernel
  exact List.map_eq_singleton_iff.1 h

/-- The alias `N` leaves the name `Id`, which the importing document has an alias of its own for. -/
theorem expand_imported_captured : ∃ cls n,
    (Store.ofSources capturing).classes "C" = [cls] ∧
    (Store.ofSources capturing).declarations (.ofFunction "g") = [n] ∧
    IsLastDefinition n ⟨"L", "N", "C"⟩ ∧
    (aliasesAt (.ofSources capturing) n).expand (.plain "L") ≠
      (aliasesAt (.ofSources capturing) cls).expand (.plain "N") := by
  obtain ⟨cls, comment, hclass, hcomment, honly, hpos⟩ := exists_exporting
  obtain ⟨n, hn, hcomments⟩ := exists_importing
  have hfirst : (Doc.aliases exportComment).find? (·.name == "N") =
      some ⟨"N", exportedRow (.plain "M")⟩ := by
    rw [aliases_exportComment]
    rfl
  have hlast : IsLastDefinition n ⟨"L", "N", "C"⟩ :=
    ⟨[], _, [], [], [], hcomments, imports_importComment, by simp, by simp⟩
  have hexporting : aliasesAt (.ofSources capturing) cls =
      [("N", exportedRow (.plain "M")), ("M", .list (.plain "Id"))] := by
    rw [aliasesAt_of_only honly hpos]
    simp [addComment, imports_exportComment, ofComment_exportComment]
  have himporting : aliasesAt (.ofSources capturing) n =
      [("L", exportedRow (.list (.plain "Id"))), ("Id", .plain "string")] := by
    have himported : imported? (.ofSources capturing) ⟨"L", "N", "C"⟩ =
        some (exportedRow (.list (.plain "Id"))) := by
      rw [imported?_eq_some (i := ⟨"L", "N", "C"⟩) hclass hcomment honly hfirst,
        ofComment_exportComment]
      rfl
    simp [aliasesAt, hcomments, addComment, imports_importComment, AliasScope.ofComment,
      aliases_importComment, himported]
  obtain ⟨-, hsame⟩ := expand_imported capturing n cls cls comment _ ⟨"L", "N", "C"⟩ _ hclass
    hcomment honly rfl hpos hfirst (acyclic_exportComment _) hlast (by rw [himporting]; rfl)
    (by rw [hexporting]; rfl)
  refine ⟨cls, n, hclass, hn, hlast, fun heq => ?_⟩
  have hfound : (AliasScope.ofComment exportComment).find? "N" =
      some (exportedRow (.plain "M")) := by
    rw [ofComment_exportComment]
    rfl
  have hleft : "Id" ∈ ((aliasesAt (.ofSources capturing) cls).expand (.plain "N")).names := by
    rw [hexporting]
    decide
  have hkept : Doc.expand (Doc.without "L" (aliasesAt (.ofSources capturing) n).find?)
      (.plain "Id") = .plain "Id" :=
    (hsame hfound (by simp [imports_exportComment])).1 heq "Id" hleft
  have hcaptured : Doc.expand (Doc.without "L" (aliasesAt (.ofSources capturing) n).find?)
      (.plain "Id") = .plain "string" := by
    rw [himporting]
    rfl
  exact absurd (hcaptured.symm.trans hkept) (by simp [Shape.plain])

end Inference

end ArrayShapes
