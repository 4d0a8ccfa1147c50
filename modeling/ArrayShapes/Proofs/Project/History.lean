import Mathlib.Data.List.Induction
import Mathlib.Data.List.Nodup
import ArrayShapes.Project.Store

/-!
What a store holds depends on the latest text of each document only, and what it finds under a name
are the declarations in these texts that have the name, in order.
-/

namespace ArrayShapes.Project

open Syntax

/-! ### Documents -/

/-- The latest text under each uri of a history, in the order in which the uris came first. -/
def latest (history : List (String × String)) : List (String × String) :=
  (history.map Prod.fst).eraseDups.map fun uri => (uri, (history.reverse.lookup uri).getD "")

/-- Puts a text in the place of the one under its uri, or last if there is none. -/
def revise (sources : List (String × String)) (uri text : String) : List (String × String) :=
  sources.map (fun f => if f.1 = uri then (uri, text) else f) ++
    if uri ∈ sources.map Prod.fst then [] else [(uri, text)]

/-- Sources numbered in order. -/
def Store.numbered (sources : List (String × String)) : Store :=
  ⟨sources.mapIdx fun i f => .make i f.1 f.2⟩

theorem nodup_eraseDups : (uris : List String) → uris.eraseDups.Nodup
  | [] => by simp
  | uri :: uris => by
      rw [List.eraseDups_cons, List.nodup_cons]
      exact ⟨by simp [List.mem_eraseDups], nodup_eraseDups _⟩
termination_by uris => uris.length
decreasing_by
  have := List.length_filter_le (fun u => !u == uri) uris
  simp only [List.length_cons]
  omega

theorem map_fst_latest (history : List (String × String)) :
    (latest history).map Prod.fst = (history.map Prod.fst).eraseDups := by
  simp [latest, Function.comp_def]

theorem revise_of_notMem {sources : List (String × String)} {uri : String}
    (huri : uri ∉ sources.map Prod.fst) (text : String) :
    revise sources uri text = sources ++ [(uri, text)] := by
  have hne (f) (hf : f ∈ sources) : f.1 ≠ uri :=
    fun hfst => huri (List.mem_map.2 ⟨f, hf, hfst⟩)
  rw [revise, if_neg huri, List.map_congr_left fun f hf => if_neg (hne f hf), List.map_id']

theorem latest_concat (history : List (String × String)) (uri text : String) :
    latest (history ++ [(uri, text)]) = revise (latest history) uri text := by
  have hlookup (u : String) : (history ++ [(uri, text)]).reverse.lookup u =
      if u = uri then some text else history.reverse.lookup u := by
    by_cases hu : u = uri
    · simp [hu]
    · simp [List.lookup_cons, beq_false_of_ne hu, hu]
  simp only [revise, map_fst_latest, List.mem_eraseDups]
  simp only [latest, List.map_append, List.map_cons, List.map_nil, List.eraseDups_append, hlookup,
    List.map_map]
  congr 1
  · apply List.map_congr_left
    intro u _
    by_cases hu : u = uri <;> simp [hu]
  · by_cases huri : uri ∈ history.map Prod.fst
    · simp [List.removeAll, huri]
    · simp [List.removeAll, huri, List.eraseDups_cons]

namespace Store

theorem slot?_numbered (sources : List (String × String)) (uri : String) :
    (numbered sources).slot? uri = sources.findIdx? (·.1 == uri) := by
  have huris : (numbered sources).entries.map (·.document.uri) = sources.map Prod.fst := by
    apply List.ext_getElem <;> simp [numbered, Entry.make, Document.parse]
  have hslot := congrArg (List.findIdx? (· == uri)) huris
  rwa [List.findIdx?_map, List.findIdx?_map] at hslot

theorem add_numbered {sources : List (String × String)} (hnodup : (sources.map Prod.fst).Nodup)
    (uri text : String) :
    (numbered sources).add uri text = numbered (revise sources uri text) := by
  simp only [add, slot?_numbered]
  cases hslot : sources.findIdx? (·.1 == uri) with
  | none =>
      have huri : uri ∉ sources.map Prod.fst := by
        intro hmem
        obtain ⟨f, hf, rfl⟩ := List.mem_map.1 hmem
        simpa using List.findIdx?_eq_none_iff.1 hslot f hf
      rw [revise_of_notMem huri]
      simp [numbered, size]
  | some i =>
      obtain ⟨hi, hfst, -⟩ := List.findIdx?_eq_some_iff_getElem.1 hslot
      have hfst : sources[i].1 = uri := by simpa using hfst
      have huri : uri ∈ sources.map Prod.fst :=
        List.mem_map.2 ⟨sources[i], List.getElem_mem hi, hfst⟩
      -- the uri stands at this one place
      have hplace (j : Nat) (hj : j < sources.length) : sources[j].1 = uri ↔ i = j := by
        have hinj : sources[i].1 = sources[j].1 ↔ i = j := by
          simpa [Fin.ext_iff] using (List.nodup_iff_injective_getElem.1 hnodup).eq_iff
            (a := ⟨i, by simpa⟩) (b := ⟨j, by simpa⟩)
        rw [← hinj, hfst, eq_comm]
      rw [revise, if_pos huri, List.append_nil]
      simp only [numbered, Store.mk.injEq]
      apply List.ext_getElem
      · simp
      · intro j hj hj'
        simp only [List.getElem_set, List.getElem_mapIdx, List.getElem_map]
        have hj : j < sources.length := by simpa using hj
        by_cases hij : i = j
        · simp [hij, (hplace j hj).2 hij]
        · simp [hij, mt (hplace j hj).1 hij]

theorem ofSources_concat (history : List (String × String)) (uri text : String) :
    ofSources (history ++ [(uri, text)]) = (ofSources history).add uri text := by
  simp [ofSources]

theorem nodup_map_fst_latest (history : List (String × String)) :
    ((latest history).map Prod.fst).Nodup := by
  rw [map_fst_latest]
  exact nodup_eraseDups _

theorem ofSources_eq_numbered_latest (history : List (String × String)) :
    ofSources history = numbered (latest history) := by
  induction history using List.reverseRecOn with
  | nil => rfl
  | append_singleton history f ih =>
      rw [ofSources_concat, ih, add_numbered (nodup_map_fst_latest history), latest_concat]

theorem ofSources_of_nodup {sources : List (String × String)}
    (hnodup : (sources.map Prod.fst).Nodup) : ofSources sources = numbered sources := by
  induction sources using List.reverseRecOn with
  | nil => rfl
  | append_singleton sources f ih =>
      rw [List.map_append, List.map_singleton, List.nodup_append] at hnodup
      obtain ⟨hnodup, -, hne⟩ := hnodup
      have huri : f.1 ∉ sources.map Prod.fst := fun hmem => hne _ hmem _ (by simp) rfl
      rw [ofSources_concat, ih hnodup, add_numbered hnodup, revise_of_notMem huri]

theorem ofSources_latest (history : List (String × String)) :
    ofSources history = ofSources (latest history) := by
  rw [ofSources_eq_numbered_latest, ofSources_of_nodup (nodup_map_fst_latest history)]

theorem documents_ofSources (history : List (String × String)) :
    (ofSources history).documents =
      (latest history).mapIdx fun i f => Document.parse i f.1 f.2 := by
  rw [ofSources_eq_numbered_latest]
  apply List.ext_getElem <;> simp [documents, numbered, Entry.make]

/-- An entry holds the symbols of its document. -/
theorem symbols_of_mem_ofSources {history : List (String × String)} {e : Entry}
    (he : e ∈ (ofSources history).entries) : e.symbols = symbolsOf e.document := by
  rw [ofSources_eq_numbered_latest] at he
  obtain ⟨i, hi, rfl⟩ := List.mem_mapIdx.1 he
  rfl

end Store

/-! ### Declarations -/

/-- The phrases that declare symbols of a kind. -/
def SymbolKind.phrases : SymbolKind → List PhraseKind
  | .function => [.functionDeclaration]
  | .cls => [.classDeclaration, .interfaceDeclaration, .traitDeclaration, .enumDeclaration]
  | .method => [.methodDeclaration]

/-- Whether a node declares a symbol of a kind under a name. -/
def declares (kind : SymbolKind) (key : String) (n : Node) : Bool :=
  n.isPhraseIn kind.phrases && (declaredName? n).any fun name => baseName name.text == key

/-- What a document declares under a name, in pre-order. -/
def declared (kind : SymbolKind) (key : String) (d : Document) : List Node :=
  d.root.descendants.filter (declares kind key)

/-- The class a method belongs to, the empty name for one without a name. -/
def containerName (method : Node) : String := (enclosingClassName? method).getD ""

/-- The methods of a class, or all of them where it has none. -/
def preferring (cls : Option String) (methods : List Node) : List Node :=
  match cls with
  | none => methods
  | some cls =>
    let own := methods.filter fun m => containerName m == cls
    if own.isEmpty then methods else own

theorem symbolKind?_eq_some_iff {n : Node} {kind : SymbolKind} :
    symbolKind? n = some kind ↔ n.isPhraseIn kind.phrases := by
  unfold symbolKind? Node.isPhraseIn
  cases n.phraseKind? with
  | none => simp
  | some k => cases kind <;> cases k <;> simp [SymbolKind.phrases]

/-- A node is found under the name it declares. -/
theorem map_declaration_filter_symbolOf? (kind : SymbolKind) (key : String) (n : Node) :
    ((symbolOf? n).filter fun s => s.kind = kind && s.key == key).map (·.declaration) =
      Option.guard (declares kind key) n := by
  have hkind : symbolKind? n = some kind ↔ n.isPhraseIn kind.phrases := symbolKind?_eq_some_iff
  cases hk : symbolKind? n with
  | none => simp_all [symbolOf?, declares, Option.guard]
  | some k =>
      cases hname : declaredName? n with
      | none => simp [symbolOf?, declares, Option.guard, hk, hname]
      | some name =>
          by_cases hkk : k = kind
          · simp_all [symbolOf?, declares, Option.guard, Option.filter, apply_ite]
          · simp_all [symbolOf?, declares, Option.guard, Option.filter]

theorem map_declaration_found (kind : SymbolKind) (key : String) (d : Document) :
    (found kind key (symbolsOf d)).map (·.declaration) = declared kind key d := by
  rw [found, symbolsOf, List.filter_filterMap, List.map_filterMap, declared,
    ← List.filterMap_eq_filter]
  exact List.filterMap_congr fun n _ => map_declaration_filter_symbolOf? kind key n

theorem container_of_mem_found {key : String} {d : Document} {s : Symbol}
    (hs : s ∈ found .method key (symbolsOf d)) : s.container = some (containerName s.declaration) := by
  obtain ⟨hs, hkind⟩ := List.mem_filter.1 hs
  obtain ⟨n, -, hn⟩ := List.mem_filterMap.1 hs
  simp only [symbolOf?, Option.bind_eq_bind, Option.bind_eq_some_iff] at hn
  obtain ⟨kind, -, name, -, hn⟩ := hn
  cases hn
  simp_all [containerName]

namespace Store

theorem map_declaration_found (history : List (String × String)) (kind : SymbolKind)
    (key : String) :
    ((ofSources history).found kind key).map (·.declaration) =
      (ofSources history).documents.flatMap (declared kind key) := by
  rw [found, documents, List.map_flatMap, List.flatMap_map]
  apply List.flatMap_congr
  intro e he
  rw [symbols_of_mem_ofSources he, Project.map_declaration_found]

theorem map_declaration_methods (history : List (String × String)) (cls : Option String)
    (name : String) :
    ((ofSources history).methods cls name).map (·.declaration) =
      preferring cls ((ofSources history).documents.flatMap (declared .method name)) := by
  cases cls with
  | none => exact map_declaration_found history .method name
  | some cls =>
      have hown : ((ofSources history).found .method name).filter (·.container == some cls) =
          ((ofSources history).found .method name).filter
            (fun s => containerName s.declaration == cls) := by
        apply List.filter_congr
        intro s hs
        obtain ⟨e, he, hs⟩ := List.mem_flatMap.1 hs
        rw [symbols_of_mem_ofSources he] at hs
        simp [container_of_mem_found hs]
      simp only [methods, preferring, hown, ← map_declaration_found, List.filter_map,
        Function.comp_def, List.isEmpty_map, apply_ite (List.map _)]

end Store

/-- A store is built from the latest text of each uri, in the order in which the uris came, and finds
under a name the declarations of these documents that have it. A method is looked for in its class
and, if this has none of the name, in all classes. -/
theorem declarations_of_history (history : List (String × String)) :
    Store.ofSources history = Store.ofSources (latest history) ∧
    (Store.ofSources history).documents =
      ((latest history).mapIdx fun i f => Document.parse i f.1 f.2) ∧
    (∀ name, (Store.ofSources history).declarations (.ofFunction name) =
      (Store.ofSources history).documents.flatMap (declared .function (baseName name))) ∧
    (∀ name, (Store.ofSources history).declarations (.ofClass name) =
      (Store.ofSources history).documents.flatMap (declared .cls (baseName name))) ∧
    (∀ name, (Store.ofSources history).classes name =
      (Store.ofSources history).documents.flatMap (declared .cls (baseName name))) ∧
    ∀ cls name, (Store.ofSources history).declarations (.ofMethod cls name) =
      preferring (cls.map baseName)
        ((Store.ofSources history).documents.flatMap (declared .method (Text.lower name))) := by
  refine ⟨Store.ofSources_latest history, Store.documents_ofSources history, ?_, ?_, ?_, ?_⟩
  · intro name
    exact Store.map_declaration_found history .function (baseName name)
  · intro name
    exact Store.map_declaration_found history .cls (baseName name)
  · intro name
    exact Store.map_declaration_found history .cls (baseName name)
  · intro cls name
    exact Store.map_declaration_methods history (cls.map baseName) (Text.lower name)

end ArrayShapes.Project
