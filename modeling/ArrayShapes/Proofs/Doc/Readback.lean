import ArrayShapes.Proofs.Doc.Reading
import ArrayShapes.Proofs.Shape.Keys

/-!
Shapes whose rendering reads back as themselves: it is a layout of a derivation of them.
-/

namespace ArrayShapes

open Text Doc Expression

namespace Shape

/-- Shapes whose rendering is read as it was meant. A name has to be one name, and one with arguments
must not stand for an array. Keys are strings and do not make the record a tuple. -/
inductive Renderable : Shape → Prop where
  | str (content : String) : Renderable (.str content)
  | named {name : String} {arguments : List Shape}
      (hname : name? name.toList = some (name, []))
      (hkept : ofName name arguments = .named name arguments)
      (harguments : ∀ s ∈ arguments, Renderable s) : Renderable (.named name arguments)
  | list {value : Shape} (hvalue : Renderable value) : Renderable (.list value)
  | map {key value : Shape} (hkey : Renderable key) (hvalue : Renderable value) :
      Renderable (.map key value)
  | record {entries : List (Shape × Shape)}
      (hkeys : ∀ e ∈ entries, ∃ content, e.1 = .str content)
      (hindices : entries = [] ∨ areIndices 0 (entries.map Prod.fst) = false)
      (hvalues : ∀ e ∈ entries, Renderable e.2) : Renderable (.record entries none)
  | union {members : List Shape} (hsize : 2 ≤ members.length)
      (hflat : ∀ s ∈ members, s.isUnion = false)
      (hmembers : ∀ s ∈ members, Renderable s) : Renderable (.union members)

end Shape

namespace Doc.Expression

/-! ### Layouts of renderings -/

/-- Text that is a layout of a part, also with blanks in front. -/
def Spells (cs : List Char) (p : Part) : Prop :=
  ∃ ts, Derives ts p ∧ ∀ gap, (∀ c ∈ gap, isWhite c) → Layout ts (gap ++ cs)

theorem trivia_of_white {gap : List Char} (hgap : ∀ c ∈ gap, isWhite c) : Trivia gap := by
  induction gap with
  | nil => exact .nil
  | cons c gap ih =>
      rw [List.forall_mem_cons] at hgap
      exact (ih hgap.2).white hgap.1

theorem layout_sign (c : Char) {ts : List Lexeme} {cs : List Char} (hcs : Layout ts cs) :
    Layout (.sign c :: ts) (c :: cs) :=
  @Layout.cons (.sign c) ts [] cs (by simp [Lexeme.Admits]) hcs

theorem spells_single {cs : List Char} {s : Shape} (hcs : Spells cs (.base s)) :
    Spells cs (.single s) := by
  obtain ⟨ts, hs, hlayout⟩ := hcs
  exact ⟨ts, by simpa [bracketRow] using hs.single 0, hlayout⟩

theorem spells_multi {cs : List Char} {s : Shape} (hcs : Spells cs (.single s)) :
    Spells cs (.multi s) := by
  obtain ⟨ts, hs, hlayout⟩ := hcs
  exact ⟨ts, by simpa [Shape.oneOf] using hs.multi .last, hlayout⟩

theorem spells_plain {name : String} (hname : name? name.toList = some (name, [])) :
    Spells name.toList (.base (.plain name)) := by
  refine ⟨_, .name hname, fun gap hgap => ?_⟩
  simpa [Lexeme.text] using Layout.nil.cons (t := .word name.toList) (trivia_of_white hgap)

theorem written_escaped (content : List Char) :
    Written '\'' (content.flatMap fun c => if c == '\'' || c == '\\' then ['\\', c] else [c])
      content := by
  induction content with
  | nil => exact .nil
  | cons c content ih =>
      rw [List.flatMap_cons]
      split
      next => exact ih.escaped
      next hc =>
        simp only [Bool.or_eq_true, beq_iff_eq, not_or] at hc
        exact ih.plain hc.1 hc.2

theorem spells_quoted (content : String) :
    Spells (Shape.quoted content) (.base (.str content)) := by
  have hstring : Derives [.string '\'' _] (.base (.str (String.ofList content.toList))) :=
    .string rfl (written_escaped content.toList)
  rw [String.ofList_toList] at hstring
  refine ⟨_, hstring, fun gap hgap => ?_⟩
  simpa [Lexeme.text, Shape.quoted] using
    Layout.nil.cons (t := .string '\'' _) (trivia_of_white hgap)

theorem spells_named {name : String} (hname : name? name.toList = some (name, [])) {cs : List Char}
    {ss : List Shape} (hcs : Spells cs (.arguments ss)) :
    Spells (name.toList ++ '<' :: (cs ++ ['>'])) (.base (.ofName name ss)) := by
  obtain ⟨ts, hs, hlayout⟩ := hcs
  refine ⟨_, .named hname hs, fun gap hgap => ?_⟩
  have hrest := layout_sign '<' ((hlayout [] (by simp)).append (layout_sign '>' .nil))
  exact hrest.cons (t := .word name.toList) (trivia_of_white hgap)

theorem spells_record {cs : List Char} {es : List (Shape × Shape)}
    (hcs : es = [] ∧ cs = [] ∨ Spells cs (.entries es)) :
    Spells ("array".toList ++ '{' :: (cs ++ ['}'])) (.base (.ofEntries es none)) := by
  obtain ⟨ts, hs, hlayout⟩ : ∃ ts, Derives ts (.entries es) ∧ Layout ts cs := by
    rcases hcs with ⟨rfl, rfl⟩ | ⟨ts, hs, hlayout⟩
    · exact ⟨[], .empty, .nil⟩
    · exact ⟨ts, hs, hlayout [] (by simp)⟩
  refine ⟨_, .record hs, fun gap hgap => ?_⟩
  have hrest := layout_sign '{' (hlayout.append (layout_sign '}' .nil))
  exact hrest.cons (t := .word "array".toList) (trivia_of_white hgap)

theorem renderList_singleton (separator : List Char) (s : Shape) :
    Shape.renderList separator [s] = s.renderChars := by
  simp [Shape.renderList]

theorem renderList_cons_cons (separator : List Char) (s t : Shape) (ss : List Shape) :
    Shape.renderList separator (s :: t :: ss) =
      s.renderChars ++ (separator ++ Shape.renderList separator (t :: ss)) := by
  rw [Shape.renderList]
  simp

theorem spells_arguments {s : Shape} {ss : List Shape}
    (hs : ∀ t ∈ s :: ss, Spells t.renderChars (.multi t)) :
    Spells (Shape.renderList ", ".toList (s :: ss)) (.arguments (s :: ss)) := by
  induction ss generalizing s with
  | nil =>
      obtain ⟨ts, hs, hlayout⟩ := hs s (by simp)
      rw [renderList_singleton]
      exact ⟨ts, .argument hs, hlayout⟩
  | cons t ss ih =>
      rw [List.forall_mem_cons] at hs
      obtain ⟨⟨ts, hs, hlayout⟩, hss⟩ := hs
      obtain ⟨us, hus, hrest⟩ := ih hss
      refine ⟨_, .arguments hs hus, fun gap hgap => ?_⟩
      rw [renderList_cons_cons, ← List.append_assoc]
      exact (hlayout gap hgap).append (layout_sign ',' (hrest [' '] (by simp [isWhite])))

theorem spells_others {s : Shape} {ss : List Shape}
    (hs : ∀ t ∈ s :: ss, Spells t.renderChars (.single t)) :
    ∃ us, Derives us (.others (s :: ss)) ∧
      Layout us ('|' :: Shape.renderList ['|'] (s :: ss)) := by
  induction ss generalizing s with
  | nil =>
      obtain ⟨ts, hs, hlayout⟩ := hs s (by simp)
      rw [renderList_singleton]
      refine ⟨_, .other hs .last, layout_sign '|' ?_⟩
      simpa using hlayout [] (by simp)
  | cons t ss ih =>
      rw [List.forall_mem_cons] at hs
      obtain ⟨⟨ts, hs, hlayout⟩, hss⟩ := hs
      obtain ⟨us, hus, hrest⟩ := ih hss
      refine ⟨_, .other hs hus, layout_sign '|' ?_⟩
      rw [renderList_cons_cons]
      exact (hlayout [] (by simp)).append hrest

theorem spells_union {s t : Shape} {ss : List Shape}
    (hs : ∀ u ∈ s :: t :: ss, Spells u.renderChars (.single u)) :
    Spells (Shape.renderList ['|'] (s :: t :: ss)) (.multi (.union (s :: t :: ss))) := by
  rw [List.forall_mem_cons] at hs
  obtain ⟨⟨ts, hs, hlayout⟩, hss⟩ := hs
  obtain ⟨us, hus, hrest⟩ := spells_others hss
  refine ⟨_, hs.multi hus, fun gap hgap => ?_⟩
  rw [renderList_cons_cons, ← List.append_assoc]
  exact (hlayout gap hgap).append hrest

/-- A key as it stands in a record. -/
def renderKey (key : Shape) : List Char :=
  match Shape.bareKey? key with
  | some content => content.toList
  | none => key.renderChars

theorem renderEntries_eq (key value : Shape) (es : List (Shape × Shape)) :
    Shape.renderEntries ((key, value) :: es) =
      renderKey key ++ ": ".toList ++ value.renderChars ++
        (if es.isEmpty then [] else ", ".toList ++ Shape.renderEntries es) := rfl

theorem isKey_renderKey (content : String) :
    ∃ t, IsKey t content ∧ t.text = renderKey (.str content) := by
  simp only [renderKey, Shape.bareKey?]
  split
  next bare hbare =>
    split at hbare
    next hall =>
      cases hbare
      have hkey : content.toList ≠ [] ∧ ∀ c ∈ content.toList, isKeyChar c := by
        simpa [isKeyChar] using hall
      exact ⟨_, by simpa using IsKey.word hkey.1 hkey.2, rfl⟩
    next => simp at hbare
  next =>
    have hstring : IsKey (.string '\'' _) (String.ofList content.toList) :=
      .string rfl (written_escaped content.toList)
    rw [String.ofList_toList] at hstring
    exact ⟨_, hstring, by simp [Lexeme.text, Shape.quoted]⟩

theorem IsKey.admits_white {t : Lexeme} {key : String} (hkey : IsKey t key) {gap : List Char}
    (hgap : ∀ c ∈ gap, isWhite c) : t.Admits gap := by
  rw [hkey.admits]
  exact trivia_of_white hgap

theorem spells_entries {key value : Shape} {es : List (Shape × Shape)}
    (hkeys : ∀ e ∈ (key, value) :: es, ∃ content, e.1 = .str content)
    (hvalues : ∀ e ∈ (key, value) :: es, Spells e.2.renderChars (.multi e.2)) :
    Spells (Shape.renderEntries ((key, value) :: es)) (.entries ((key, value) :: es)) := by
  induction es generalizing key value with
  | nil =>
      obtain ⟨content, rfl⟩ := hkeys (key, value) (by simp)
      obtain ⟨ts, hs, hlayout⟩ := hvalues (.str content, value) (by simp)
      obtain ⟨t, hkey, htext⟩ := isKey_renderKey content
      refine ⟨_, .entry hkey (.inl rfl) hs, fun gap hgap => ?_⟩
      have hrest := layout_sign ':' (hlayout [' '] (by simp [isWhite]))
      rw [renderEntries_eq]
      simpa [htext] using hrest.cons (hkey.admits_white hgap)
  | cons e es ih =>
      obtain ⟨⟨content, rfl⟩, hkeyRest⟩ := List.forall_mem_cons.1 hkeys
      obtain ⟨⟨ts, hs, hlayout⟩, hvalueRest⟩ := List.forall_mem_cons.1 hvalues
      obtain ⟨us, hus, hmore⟩ := ih hkeyRest hvalueRest
      obtain ⟨t, hkey, htext⟩ := isKey_renderKey content
      refine ⟨_, .entries hkey (.inl rfl) hs hus, fun gap hgap => ?_⟩
      have hrest := layout_sign ':' ((hlayout [' '] (by simp [isWhite])).append
        (layout_sign ',' (hmore [' '] (by simp [isWhite]))))
      rw [renderEntries_eq]
      simpa [htext] using hrest.cons (hkey.admits_white hgap)

end Doc.Expression

/-! ### Shapes -/

namespace Shape.Renderable

theorem opens {s : Shape} (hs : Renderable s) : Opens s.renderChars := by
  induction hs with
  | str content => exact ⟨'\'', rfl, rfl⟩
  | @named name arguments hname _ _ _ =>
      rw [renderChars_named]
      split
      · exact opens_name hname
      · rw [List.append_assoc]
        exact (opens_name hname).append _
  | list => exact ⟨'l', rfl, rfl⟩
  | map => exact ⟨'a', rfl, rfl⟩
  | record =>
      rw [renderChars_record]
      exact ⟨'a', rfl, rfl⟩
  | @union members hsize _ _ ih =>
      match members, hsize with
      | s :: ss, _ =>
          rw [renderChars_union, List.isEmpty_cons, if_neg (by simp), renderList]
          exact (ih s (by simp)).append _

theorem spells_base {s : Shape} (hbase : Spells s.renderChars (.base s)) :
    Spells s.renderChars (.multi s) ∧ (s.isUnion = false → Spells s.renderChars (.single s)) :=
  ⟨spells_multi (spells_single hbase), fun _ => spells_single hbase⟩

/-- A rendering is a layout of its shape. -/
theorem spells {s : Shape} (hs : Renderable s) :
    Spells s.renderChars (.multi s) ∧ (s.isUnion = false → Spells s.renderChars (.single s)) := by
  induction hs with
  | str content => exact spells_base (spells_quoted content)
  | @named name arguments hname hkept _ ih =>
      apply spells_base
      cases arguments with
      | nil => simpa [plain] using spells_plain hname
      | cons s ss =>
          simpa [hkept] using spells_named hname (spells_arguments fun t ht => (ih t ht).1)
  | @list value _ ih =>
      apply spells_base
      have hkept : ofName "list" [value] = .list value := by
        simp [ofName, isNameIn, relativeName, sameName, lower]
      have hname : name? "list".toList = some ("list", []) := by decide
      have hvalue : Spells (renderList ", ".toList [value]) (.arguments [value]) :=
        spells_arguments (by simpa using ih.1)
      simpa [hkept, renderList_singleton] using spells_named hname hvalue
  | @map key value _ _ ihkey ihvalue =>
      apply spells_base
      have hkept : ofName "array" [key, value] = .map key value := by
        simp [ofName, isNameIn, relativeName, sameName, lower]
      have hname : name? "array".toList = some ("array", []) := by decide
      have hboth : Spells (renderList ", ".toList [key, value]) (.arguments [key, value]) :=
        spells_arguments (by simpa using ⟨ihkey.1, ihvalue.1⟩)
      simpa [hkept, renderList_cons_cons, renderList_singleton] using spells_named hname hboth
  | @record entries hkeys hindices _ ih =>
      apply spells_base
      have hkept : ofEntries entries none = .record entries none := by
        rcases hindices with rfl | hindices
        · rfl
        · simp [ofEntries, hindices]
      rw [← hkept]
      have hentries : entries = [] ∧ renderEntries entries = [] ∨
          Spells (renderEntries entries) (.entries entries) := by
        cases entries with
        | nil => exact .inl ⟨rfl, rfl⟩
        | cons e es => exact .inr (spells_entries hkeys fun f hf => (ih f hf).1)
      simpa [hkept] using spells_record hentries
  | @union members hsize hflat _ ih =>
      refine ⟨?_, by simp [isUnion]⟩
      cases members with
      | nil => simp at hsize
      | cons s ss =>
          cases ss with
          | nil => simp at hsize
          | cons t ss => simpa using spells_union fun u hu => (ih u hu).2 (hflat u hu)

theorem readExpression_eq {s : Shape} (hs : Renderable s) {r : List Char} (hr : Ends r) :
    readExpression (s.renderChars ++ r) = (some s, dropWhite r) := by
  obtain ⟨ts, hderives, hlayout⟩ := hs.spells.1
  exact readExpression_layout hderives (hlayout [] (by simp)) hr

end Shape.Renderable

namespace Doc

theorem expression?_eq {s : Shape} (hs : s.Renderable) {r : String}
    (hr : Expression.Ends r.toList) :
    expression? (s.render ++ r) = some (s, String.ofList (dropWhite r.toList)) := by
  simp [expression?, Shape.render, hs.readExpression_eq hr]

/-- A rendering reads back as its shape, at the end of a text and in front of a variable. -/
theorem expression?_render {s : Shape} (hs : s.Renderable) {r : String}
    (hr : r = "" ∨ ∃ gap name, (∀ c ∈ gap, isWhite c) ∧ r.toList = gap ++ '$' :: name) :
    expression? (s.render ++ r) = some (s, String.ofList (dropWhite r.toList)) := by
  apply expression?_eq hs
  rcases hr with rfl | ⟨gap, name, hgap, hr⟩
  · exact ⟨by simp, by simp [dropWhite]⟩
  · rw [hr]
    exact follows_of_dropWhite (dropWhite_gap hgap rfl name) rfl (by simp)

/-- A list of numbers and a map under a key in quotes, or nothing. -/
def someRows : Shape :=
  .union [.record [(.str "id", .list (.plain "int")),
    (.str "it's", .map (.plain "string") (.named "Foo\\Row" [.str "x|y"]))] none, .plain "null"]

theorem renderable_someRows : someRows.Renderable := by
  have hplain (name : String) (hname : Expression.name? name.toList = some (name, [])) :
      (Shape.plain name).Renderable := .named hname rfl (by simp)
  have hrow : (Shape.named "Foo\\Row" [.str "x|y"]).Renderable := by
    apply Shape.Renderable.named (by decide)
    · have harray : Shape.isNameIn ["array", "non-empty-array"] "Foo\\Row" = false := by
        decide +kernel
      have hlist : Shape.isNameIn ["list", "non-empty-list"] "Foo\\Row" = false := by
        decide +kernel
      simp [Shape.ofName, harray, hlist]
    · simp [Shape.Renderable.str]
  apply Shape.Renderable.union (by decide)
  · simp [Shape.isUnion, Shape.plain]
  · simp only [List.forall_mem_cons]
    refine ⟨.record (by simp) (.inr (by decide)) ?_, hplain "null" (by decide), by simp⟩
    simp only [List.forall_mem_cons]
    exact ⟨(hplain "int" (by decide)).list, (hplain "string" (by decide)).map hrow, by simp⟩

theorem expression?_render_someRows :
    (∀ c ∈ [' ', '\n'], isWhite c) ∧ " \n$rows".toList = [' ', '\n'] ++ '$' :: "rows".toList ∧
    expression? (someRows.render ++ " \n$rows") = some (someRows, "$rows") := by
  have hgap : ∀ c ∈ [' ', '\n'], isWhite c := List.all_eq_true.mp (by decide)
  exact ⟨hgap, rfl, expression?_render renderable_someRows (.inr ⟨_, "rows".toList, hgap, rfl⟩)⟩

end Doc

end ArrayShapes
