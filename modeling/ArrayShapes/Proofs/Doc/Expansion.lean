import ArrayShapes.Doc.Alias
import ArrayShapes.Proofs.Doc.Unfolding
import ArrayShapes.Proofs.Guard

/-!
Expansion under a guard is expansion without limits, as long as the limits are not passed. Where no
limit is reported there is such an expansion, and what the guard has counted are its attempts.
-/

namespace ArrayShapes.Doc

/-! ### One name after the other -/

section Visits

variable {resolve : String → Expand Shape} {f : String → Shape}

/-- The guard after some names are resolved one after the other. -/
def visit (resolve : String → Expand Shape) (g : Guard String) (names : List String) :
    Guard String :=
  names.foldl (fun g name => (resolve name g).2) g

/-- Each of some names, resolved one after the other, comes out as `f` says. -/
def Finds (resolve : String → Expand Shape) (f : String → Shape) :
    Guard String → List String → Prop
  | _, [] => True
  | g, name :: names => (resolve name g).1 = f name ∧ Finds resolve f (resolve name g).2 names

theorem visit_append (g : Guard String) (names more : List String) :
    visit resolve g (names ++ more) = visit resolve (visit resolve g names) more :=
  List.foldl_append

theorem finds_append {g : Guard String} {names more : List String} :
    Finds resolve f g (names ++ more) ↔
      Finds resolve f g names ∧ Finds resolve f (visit resolve g names) more := by
  induction names generalizing g with
  | nil => simp [Finds, visit]
  | cons name names ih => simp [Finds, visit, ih, and_assoc]

/-- An expansion that resolves some names in order and comes to `result` if they are what `f`
says. -/
def Visits {α : Type} (resolve : String → Expand Shape) (f : String → Shape) (x : Expand α)
    (names : List String) (result : α) : Prop :=
  ∀ g, (x g).2 = visit resolve g names ∧ (Finds resolve f g names → (x g).1 = result)

section Rules

variable {α β γ : Type} {x : Expand α} {y : Expand β} {names more : List String} {a : α} {b : β}

theorem Visits.pure (a : α) : Visits resolve f (pure a) [] a := fun _ => ⟨rfl, fun _ => rfl⟩

theorem Visits.map (h : Visits resolve f x names a) (F : α → β) :
    Visits resolve f (return F (← x)) names (F a) :=
  fun g => ⟨(h g).1, fun hf => congrArg F ((h g).2 hf)⟩

theorem Visits.map₂ (hx : Visits resolve f x names a) (hy : Visits resolve f y more b)
    (F : α → β → γ) : Visits resolve f (return F (← x) (← y)) (names ++ more) (F a b) := by
  intro g
  have hguard : (x g).2 = visit resolve g names := (hx g).1
  constructor
  · calc
      _ = visit resolve (x g).2 more := (hy _).1
      _ = _ := by rw [hguard, visit_append]
  · intro hf
    obtain ⟨hnames, hmore⟩ := finds_append.1 hf
    exact congrArg₂ F ((hx g).2 hnames) ((hy _).2 (hguard ▸ hmore))

end Rules

mutual

/-- A shape is expanded by resolving the names in it in order. -/
theorem expandWith_visits : (s : Shape) →
    Visits resolve f (expandWith resolve s) s.names (s.replace f)
  | .any => .pure _
  | .str _ => .pure _
  | .int _ => .pure _
  | .record es unparsed => (expandEntries_visits es).map (Shape.record · unparsed)
  | .tuple ss => (expandList_visits ss).map Shape.tuple
  | .list s => (expandWith_visits s).map Shape.list
  | .map key value => (expandWith_visits key).map₂ (expandWith_visits value) Shape.map
  | .named _ [] => fun _ => ⟨rfl, fun hf => hf.1⟩
  | .named name (a :: as) => (expandList_visits (a :: as)).map (Shape.named name)
  | .union ss => (expandList_visits ss).map Shape.union

theorem expandList_visits : (ss : List Shape) →
    Visits resolve f (expandList resolve ss) (Shape.namesList ss) (Shape.replaceList f ss)
  | [] => .pure _
  | s :: ss => (expandWith_visits s).map₂ (expandList_visits ss) List.cons

theorem expandEntries_visits : (es : List (Shape × Shape)) →
    Visits resolve f (expandEntries resolve es) (Shape.namesEntries es) (Shape.replaceEntries f es)
  | [] => .pure _
  | (key, value) :: es =>
      ((expandWith_visits key).map₂ (expandWith_visits value) Prod.mk).map₂
        (expandEntries_visits es) List.cons

end

theorem expandWith_snd (resolve : String → Expand Shape) (s : Shape) (g : Guard String) :
    (expandWith resolve s g).2 = visit resolve g s.names :=
  (expandWith_visits (f := .plain) s g).1

end Visits

/-! ### What an expansion leaves as it was -/

/-- A name that is an alias, expanded with the guard written out. -/
theorem expandName_succ {lookup : String → Option Shape} {name : String} {target : Shape}
    (h : lookup name = some target) (fuel : Nat) (g : Guard String) :
    expandName lookup (fuel + 1) name g =
      if (g.enter name).1 = .entered then
        ((expandWith (expandName lookup fuel) target (g.enter name).2).1,
          (expandWith (expandName lookup fuel) target (g.enter name).2).2.leave name)
      else (.plain name, (g.enter name).2) := by
  rw [expandName, h]
  simp only [bind, StateT.bind, modifyGet, MonadStateOf.modifyGet, StateT.modifyGet]
  obtain ⟨outcome, g₁⟩ := g.enter name
  cases outcome <;> rfl

theorem expandName_unknown {lookup : String → Option Shape} {name : String}
    (h : lookup name = none) (fuel : Nat) (g : Guard String) :
    expandName lookup fuel name g = (.plain name, g) := by
  cases fuel with
  | zero => rfl
  | succ fuel => rw [expandName, h]; rfl

/-- Work under a guard has come to its end: the keys from before are in progress, and what was
reported before it still is. -/
structure Resumes (g g' : Guard String) : Prop where
  active : g'.active = g.active
  limits : g'.limits = g.limits
  limitHit : g'.limitHit = false → g.limitHit = false

namespace Resumes

theorem refl (g : Guard String) : Resumes g g := ⟨rfl, rfl, id⟩

theorem trans {g₁ g₂ g₃ : Guard String} (h : Resumes g₁ g₂) (h' : Resumes g₂ g₃) :
    Resumes g₁ g₃ :=
  ⟨h'.active.trans h.active, h'.limits.trans h.limits, h.limitHit ∘ h'.limitHit⟩

theorem depth {g g' : Guard String} (h : Resumes g g') : g'.depth = g.depth :=
  congrArg List.length h.active

theorem visit {resolve : String → Expand Shape} (h : ∀ name g, Resumes g (resolve name g).2)
    (g : Guard String) (names : List String) : Resumes g (Doc.visit resolve g names) := by
  induction names generalizing g with
  | nil => exact .refl g
  | cons name names ih => exact (h name g).trans (ih _)

end Resumes

theorem expandName_resumes (lookup : String → Option Shape) (fuel : Nat) (name : String)
    (g : Guard String) : Resumes g (expandName lookup fuel name g).2 := by
  induction fuel generalizing name g with
  | zero => exact .refl g
  | succ fuel ih =>
      cases h : lookup name with
      | none => rw [expandName_unknown h]; exact .refl g
      | some target =>
          have hbefore (hit : (g.enter name).2.limitHit = false) : g.limitHit = false :=
            (Bool.or_eq_false_iff.1 hit).1
          rw [expandName_succ h]
          by_cases hent : (g.enter name).1 = .entered
          · have hinner := Resumes.visit ih (g.enter name).2 target.names
            rw [if_pos hent, expandWith_snd]
            refine ⟨?_, hinner.limits, hbefore ∘ hinner.limitHit⟩
            rw [Guard.leave, hinner.active, Guard.enter_active_of_entered hent,
              List.erase_cons_head]
          · rw [if_neg hent]
            exact ⟨Guard.enter_active_of_ne hent, rfl, hbefore⟩

/-! ### Within the limits -/

section Within

variable {lookup : String → Option Shape} {path : List String} {name : String} {e : Expansion}
variable {parts : String → Expansion} {fuel : Nat} {g : Guard String}

/-- Names that come out as they should, one by one, come out as they should one after the other. -/
theorem visit_of_forall {resolve : String → Expand Shape} (names : List String)
    (parts : String → Expansion) (hresumes : ∀ name g, Resumes g (resolve name g).2)
    (h : ∀ name ∈ names, ∀ g', Resumes g g' →
      g'.entries + (parts name).attempts ≤ g.limits.entries →
        (resolve name g').1 = (parts name).shape ∧
          (resolve name g').2.entries = g'.entries + (parts name).attempts)
    (hentries : g.entries + (names.map fun name => (parts name).attempts).sum ≤ g.limits.entries) :
    Finds resolve (fun name => (parts name).shape) g names ∧
      (visit resolve g names).entries =
        g.entries + (names.map fun name => (parts name).attempts).sum := by
  induction names generalizing g with
  | nil => exact ⟨trivial, rfl⟩
  | cons name names ih =>
      simp only [List.map_cons, List.sum_cons] at hentries ⊢
      obtain ⟨hshape, hcount⟩ := h name List.mem_cons_self g (.refl g) (by omega)
      have hresume := hresumes name g
      obtain ⟨hfinds, hvisit⟩ := ih (g := (resolve name g).2)
        (fun other hother g' hg' hle => h other (List.mem_cons_of_mem _ hother) g'
          (hresume.trans hg') (hresume.limits ▸ hle))
        (by rw [hresume.limits]; omega)
      refine ⟨⟨hshape, hfinds⟩, ?_⟩
      rw [visit, List.foldl_cons, ← visit, hvisit]
      omega

theorem Unfolds.expandName_eq (h : Unfolds lookup path name e) (hactive : g.active = path)
    (hfuel : e.nesting < fuel) (hnesting : g.depth + e.nesting ≤ g.limits.depth)
    (hattempts : g.entries + e.attempts ≤ g.limits.entries)
    (hmax : g.limits.entries < Guard.maxEntries) :
    (expandName lookup fuel name g).1 = e.shape ∧
      (expandName lookup fuel name g).2.entries = g.entries + e.attempts := by
  induction h generalizing fuel g with
  | unknown unknown => rw [expandName_unknown unknown]; exact ⟨rfl, rfl⟩
  | @kept path name target known mem =>
      obtain ⟨fuel, rfl⟩ : ∃ less, fuel = less + 1 := ⟨fuel - 1, by omega⟩
      have hent : (g.enter name).1 ≠ .entered := fun hent =>
        ((Guard.enter_eq_entered_iff g name).1 hent).2.2 (hactive ▸ mem)
      rw [expandName_succ known, if_neg hent]
      exact ⟨rfl, Guard.enter_entries_of_lt hattempts hmax⟩
  | @expanded path name target parts known new _ ih =>
      simp only at hfuel hnesting hattempts
      obtain ⟨fuel, rfl⟩ : ∃ less, fuel = less + 1 := ⟨fuel - 1, by omega⟩
      have hent : (g.enter name).1 = .entered :=
        (Guard.enter_eq_entered_iff g name).2 ⟨by omega, by omega, hactive ▸ new⟩
      have hcount : (g.enter name).2.entries = g.entries + 1 :=
        Guard.enter_entries_of_lt (by omega) hmax
      have hnow : (g.enter name).2.active = name :: path := by
        rw [Guard.enter_active_of_entered hent, hactive]
      obtain ⟨hfinds, hvisit⟩ := visit_of_forall (g := (g.enter name).2) target.names parts
        (expandName_resumes lookup fuel)
        (fun other hother g' hg' hle => by
          have hdepth : g'.depth = g.depth + 1 := by
            rw [hg'.depth, Guard.depth, hnow, ← hactive]
            rfl
          have hpart : (parts other).nesting ≤ (Expansion.of target parts).nesting :=
            Expansion.nesting_le_of_mem hother
          have hlimits : g'.limits = g.limits := hg'.limits
          rw [← hlimits] at hnesting hmax
          exact ih other hother (hg'.active.trans hnow) (by omega) (by omega)
            (hg'.limits ▸ hle) hmax)
        (by
          rw [hcount, ← Expansion.attempts_of, Guard.enter_limits]
          omega)
      rw [expandName_succ known, if_pos hent]
      refine ⟨(expandWith_visits target _).2 hfinds, ?_⟩
      rw [Guard.leave, expandWith_snd, hvisit, hcount, ← Expansion.attempts_of]
      exact Nat.add_right_comm ..

end Within

/-! ### Without a report -/

section Unreported

variable {lookup : String → Option Shape} {fuel : Nat} {g : Guard String}

/-- A guard that is within its limits and can tell when it is not. -/
structure Fair (g : Guard String) : Prop where
  depth : g.depth ≤ g.limits.depth
  entries : g.entries ≤ g.limits.entries
  counts : g.limits.entries < Guard.maxEntries

/-- The expansion of a name has come to its end, and the guard has counted its attempts. -/
structure Accounts (lookup : String → Option Shape) (g g' : Guard String) (name : String)
    (e : Expansion) : Prop where
  unfolds : Unfolds lookup g.active name e
  nesting : g.depth + e.nesting ≤ g.limits.depth
  entries : g'.entries = g.entries + e.attempts
  within : g'.entries ≤ g.limits.entries

/-- Names whose expansions come to an end, one by one, have expansions that account for all that is
counted when they are resolved one after the other. -/
theorem exists_parts_of_visit {resolve : String → Expand Shape} (names : List String)
    (hresumes : ∀ name g, Resumes g (resolve name g).2)
    (h : ∀ name g', Resumes g g' → Fair g' → (resolve name g').2.limitHit = false →
      ∃ e, Accounts lookup g' (resolve name g').2 name e)
    (hfair : Fair g) (hit : (visit resolve g names).limitHit = false) :
    ∃ parts : String → Expansion,
      (∀ name ∈ names, Unfolds lookup g.active name (parts name) ∧
        g.depth + (parts name).nesting ≤ g.limits.depth) ∧
      (visit resolve g names).entries =
        g.entries + (names.map fun name => (parts name).attempts).sum ∧
      (visit resolve g names).entries ≤ g.limits.entries := by
  induction names generalizing g with
  | nil => exact ⟨default, by simp, rfl, hfair.entries⟩
  | cons name names ih =>
      have hresume := hresumes name g
      obtain ⟨e, he⟩ := h name g (.refl g) hfair
        ((Resumes.visit hresumes _ names).limitHit hit)
      have hfair' : Fair (resolve name g).2 := by
        refine ⟨?_, ?_, ?_⟩ <;> rw [hresume.limits]
        · rw [hresume.depth]; exact hfair.depth
        · exact he.within
        · exact hfair.counts
      obtain ⟨parts, hparts, hcount, hwithin⟩ := ih
        (fun other g' hg' => h other g' (hresume.trans hg')) hfair' hit
      rw [hresume.active, hresume.limits, hresume.depth] at hparts
      -- a name that comes again is expanded as before
      have hsame (other) (hother : other ∈ names) :
          (if other = name then e else parts other) = parts other := by
        split
        · subst other
          exact he.unfolds.det (hparts name hother).1
        · rfl
      refine ⟨fun other => if other = name then e else parts other, ?_, ?_, ?_⟩
      · intro other hother
        by_cases heq : other = name
        · subst other
          simpa using ⟨he.unfolds, he.nesting⟩
        · simpa [heq] using hparts other (by simpa [heq] using hother)
      · have hmap := List.map_congr_left fun other hother =>
          congrArg Expansion.attempts (hsame other hother)
        rw [visit, List.foldl_cons, ← visit, hcount, he.entries, List.map_cons, List.sum_cons, hmap]
        simp [Nat.add_assoc]
      · rw [← hresume.limits]
        exact hwithin

theorem exists_accounts (name : String) (hfair : Fair g) (hfuel : g.limits.depth < g.depth + fuel)
    (hit : (expandName lookup fuel name g).2.limitHit = false) :
    ∃ e, Accounts lookup g (expandName lookup fuel name g).2 name e := by
  induction fuel generalizing name g with
  | zero => exact absurd hfair.depth (by omega)
  | succ fuel ih =>
      have hcounts := hfair.counts
      cases hlookup : lookup name with
      | none =>
          rw [expandName_unknown hlookup]
          exact ⟨_, .unknown hlookup, hfair.depth, rfl, hfair.entries⟩
      | some target =>
          rw [expandName_succ hlookup] at hit ⊢
          by_cases hent : (g.enter name).1 = .entered
          · rw [if_pos hent] at hit ⊢
            obtain ⟨he, hd, hnew⟩ := (Guard.enter_eq_entered_iff g name).1 hent
            have hcount : (g.enter name).2.entries = g.entries + 1 :=
              Guard.enter_entries_of_lt (by omega) hcounts
            have hactive := Guard.enter_active_of_entered hent
            have hdepth : (g.enter name).2.depth = g.depth + 1 := congrArg List.length hactive
            have hfair' : Fair (g.enter name).2 := ⟨by rw [hdepth]; exact hd, he, hcounts⟩
            have hinner : (visit (expandName lookup fuel) (g.enter name).2 target.names).limitHit =
                false := by
              rw [← expandWith_snd]
              exact hit
            obtain ⟨parts, hparts, hentries, hwithin⟩ := exists_parts_of_visit target.names
              (expandName_resumes lookup fuel)
              (fun other g' hg' hfair' hit' => ih other hfair'
                (by rw [hg'.limits, hg'.depth, hdepth, Guard.enter_limits]; omega) hit')
              hfair' hinner
            have hnesting : (Expansion.of target parts).nesting ≤ g.limits.depth - (g.depth + 1) := by
              rw [Expansion.nesting_of_le_iff]
              intro other hother
              have := (hparts other hother).2
              rw [hdepth, Guard.enter_limits] at this
              omega
            refine ⟨_, .expanded hlookup hnew fun other hother => hactive ▸ (hparts other hother).1,
              by simp only; omega, ?_, ?_⟩
            · rw [Guard.leave, expandWith_snd, hentries, hcount, ← Expansion.attempts_of]
              exact Nat.add_right_comm ..
            · rw [Guard.leave, expandWith_snd]
              exact hwithin
          · rw [if_neg hent] at hit ⊢
            have hok := (Bool.or_eq_false_iff.1 hit).2
            obtain ⟨he, hd⟩ := (Guard.judge_isExceeded_eq_false_iff g _ name).1 hok
            have hmem : name ∈ g.active := by
              by_contra hnew
              exact hent ((Guard.enter_eq_entered_iff g name).2 ⟨he, hd, hnew⟩)
            have hcount : (g.enter name).2.entries = g.entries + 1 :=
              Guard.enter_entries_of_lt (by omega) hcounts
            exact ⟨_, .kept hlookup hmem, hd.le, hcount, he⟩

end Unreported

/-! ### Whole shapes -/

/-- Whether a limit is reported when a shape is expanded. -/
def reportsLimit (lookup : String → Option Shape) (s : Shape) : Bool :=
  ((expandWith (expandName lookup (Limits.aliases.depth + 1)) s).run (.ofLimits .aliases)).2.limitHit

section Shapes

variable {lookup : String → Option Shape} {s : Shape} {e : Expansion}

theorem Expands.expand_eq (h : Expands lookup s e) (hnesting : e.nesting ≤ Limits.aliases.depth)
    (hattempts : e.attempts ≤ Limits.aliases.entries) : expand lookup s = e.shape := by
  obtain ⟨parts, hparts, rfl⟩ := h
  obtain ⟨hfinds, -⟩ := visit_of_forall (g := .ofLimits .aliases) s.names parts
    (expandName_resumes lookup (Limits.aliases.depth + 1))
    (fun name hname g hg hle => by
      have hpart : (parts name).nesting ≤ Limits.aliases.depth :=
        (Expansion.nesting_le_of_mem hname).trans hnesting
      have hdepth : g.depth = 0 := hg.depth
      exact (hparts name hname).expandName_eq hg.active (by omega)
        (by rw [hg.limits, hdepth, Nat.zero_add]; exact hpart) (hg.limits ▸ hle)
        (by rw [hg.limits]; decide))
    (by simpa [Guard.ofLimits, Expansion.attempts_of] using hattempts)
  exact (expandWith_visits s _).2 hfinds

theorem exists_expands (h : reportsLimit lookup s = false) :
    ∃ e, Expands lookup s e ∧ e.nesting ≤ Limits.aliases.depth ∧
      e.attempts ≤ Limits.aliases.entries := by
  have hfair : Fair (.ofLimits .aliases) := ⟨Nat.zero_le _, Nat.zero_le _, by decide⟩
  obtain ⟨parts, hparts, hentries, hwithin⟩ := exists_parts_of_visit s.names
    (expandName_resumes lookup (Limits.aliases.depth + 1))
    (fun name g hg hfair hit => exists_accounts name hfair
      (by rw [hg.limits, hg.depth]; decide) hit)
    hfair (expandWith_snd _ s _ ▸ h)
  refine ⟨_, ⟨parts, fun name hname => (hparts name hname).1, rfl⟩, ?_, ?_⟩
  · rw [Expansion.nesting_of_le_iff]
    intro name hname
    simpa [Guard.ofLimits, Guard.depth] using (hparts name hname).2
  · rw [hentries] at hwithin
    simpa [Guard.ofLimits, Expansion.attempts_of] using hwithin

end Shapes

/-- Expansion under the limits is expansion without limits where that nests at most 32 aliases and
makes at most 10000 attempts. If no alias leads back to itself no alias is left then, and another
expansion changes nothing. -/
theorem expand_eq_unlimited (lookup : String → Option Shape) (s : Shape) (e : Expansion)
    (h : Expands lookup s e) (hnesting : e.nesting ≤ 32) (hattempts : e.attempts ≤ 10000) :
    expand lookup s = e.shape ∧
      (Acyclic lookup s →
        (∀ name ∈ (expand lookup s).names, lookup name = none) ∧
          expand lookup (expand lookup s) = expand lookup s) := by
  have hexpand : expand lookup s = e.shape := h.expand_eq hnesting hattempts
  refine ⟨hexpand, fun hacyclic => ?_⟩
  have hnone : ∀ name ∈ (expand lookup s).names, lookup name = none :=
    hexpand ▸ h.lookup_eq_none hacyclic
  exact ⟨hnone, (Expands.of_lookup_eq_none hnone).expand_eq (Nat.zero_le _) (Nat.zero_le _)⟩

/-- Rows of records that are numbered in one of two ways. -/
def rowAliases : String → Option Shape
  | "Rows" => some (.list (.plain "Row"))
  | "Row" => some (.record [(.str "id", .plain "Id"), (.str "parent", .plain "Id")] none)
  | "Id" => some (.union [.plain "int", .plain "string"])
  | _ => none

theorem acyclic_rowAliases (s : Shape) : Acyclic rowAliases s := by
  apply acyclic_of_rank fun
    | "Rows" => 3
    | "Row" => 2
    | "Id" => 1
    | _ => 0
  rintro name other ⟨target, hlookup, hmem⟩
  unfold rowAliases at hlookup
  split at hlookup <;> cases hlookup <;>
    simp only [Shape.names, Shape.namesList, Shape.namesEntries, Shape.names_plain,
      List.append_nil, List.nil_append, List.cons_append, List.mem_cons, List.not_mem_nil,
      or_false, or_self] at hmem
  · simp [hmem]
  · simp [hmem]
  · rcases hmem with rfl | rfl <;> simp

/-- A row stands for the same beside the rows as within them. -/
theorem expand_rowAliases :
    ∃ e, Expands rowAliases (.tuple [.plain "Rows", .plain "Row"]) e ∧
      (e.nesting = 3 ∧ e.attempts = 7 ∧ Acyclic rowAliases (.tuple [.plain "Rows", .plain "Row"])) ∧
      expand rowAliases (.tuple [.plain "Rows", .plain "Row"]) = e.shape ∧
      expand rowAliases e.shape = e.shape := by
  let number : Expansion := ⟨.union [.plain "int", .plain "string"], 1, 1⟩
  let row : Expansion := ⟨.record [(.str "id", number.shape), (.str "parent", number.shape)] none, 2, 3⟩
  let rows : Expansion := ⟨.list row.shape, 3, 4⟩
  have hnumber (path) (h : "Id" ∉ path) : Unfolds rowAliases path "Id" number := by
    have hinner : ∀ other ∈ ["int", "string"],
        Unfolds rowAliases ("Id" :: path) other ⟨.plain other, 0, 0⟩ := by
      simp only [List.forall_mem_cons]
      exact ⟨.unknown rfl, .unknown rfl, by simp⟩
    exact @Unfolds.expanded rowAliases path "Id" _ _ rfl h hinner
  have hrow (path) (h : "Row" ∉ path) (h' : "Id" ∉ path) : Unfolds rowAliases path "Row" row := by
    have hinner : ∀ other ∈ ["Id", "Id"], Unfolds rowAliases ("Row" :: path) other number := by
      simpa using hnumber ("Row" :: path) (by simpa using h')
    exact @Unfolds.expanded rowAliases path "Row" _ _ rfl h hinner
  have hrows : Unfolds rowAliases [] "Rows" rows := by
    have hinner : ∀ other ∈ ["Row"], Unfolds rowAliases ["Rows"] other row := by
      simpa using hrow ["Rows"] (by decide) (by decide)
    exact @Unfolds.expanded rowAliases [] "Rows" _ _ rfl (by simp) hinner
  have hexpands : Expands rowAliases (.tuple [.plain "Rows", .plain "Row"])
      ⟨.tuple [rows.shape, row.shape], 3, 7⟩ := by
    have hparts : ∀ name ∈ ["Rows", "Row"],
        Unfolds rowAliases [] name (if name = "Rows" then rows else row) := by
      simpa using ⟨hrows, hrow [] (by simp) (by simp)⟩
    exact ⟨_, hparts, rfl⟩
  obtain ⟨heq, hagain⟩ := expand_eq_unlimited rowAliases _ _ hexpands (by decide) (by decide)
  exact ⟨_, hexpands, ⟨rfl, rfl, acyclic_rowAliases _⟩, heq, heq ▸ (hagain (acyclic_rowAliases _)).2⟩

/-! ### Alternatives -/

/-- The alternatives of a shape, expanded one by one, have the alternatives of its expansion, if no
limit is reported for the whole shape. -/
theorem alternatives_expand (lookup : String → Option Shape) (s : Shape)
    (h : reportsLimit lookup s = false) :
    (expand lookup s).alternatives =
      s.alternatives.flatMap fun u => (expand lookup u).alternatives := by
  obtain ⟨e, ⟨parts, hparts, rfl⟩, hnesting, hattempts⟩ := exists_expands h
  have hwhole : expand lookup s = s.replace fun name => (parts name).shape :=
    Expands.expand_eq ⟨parts, hparts, rfl⟩ hnesting hattempts
  have hpart (u) (hu : u ∈ s.alternatives) :
      expand lookup u = u.replace fun name => (parts name).shape := by
    have hsub : u.names.Sublist s.names := Shape.names_sublist_of_mem_alternatives hu
    apply Expands.expand_eq ⟨parts, fun name hname => hparts name (hsub.subset hname), rfl⟩
    · exact Expansion.nesting_of_le_iff.2 fun name hname =>
        (Expansion.nesting_le_of_mem (hsub.subset hname)).trans hnesting
    · exact (Expansion.attempts_of_le_of_sublist hsub).trans hattempts
  rw [hwhole, Shape.alternatives_replace]
  exact List.flatMap_congr fun u hu => by rw [hpart u hu]

/-- A union within a union, of aliases for a record and for another union: the record stays one
alternative, and the alternatives of the other one stand in its place. -/
theorem alternatives_expand_rowAliases :
    let id : Shape := .union [.plain "int", .plain "string"]
    let row : Shape := .record [(.str "id", id), (.str "parent", id)] none
    reportsLimit rowAliases (.union [.plain "Row", .union [.plain "Id", .str "x"]]) = false ∧
      [.plain "Row", .plain "Id", .str "x"].flatMap (fun u => (expand rowAliases u).alternatives) =
        [row, .plain "int", .plain "string", .str "x"] ∧
      (expand rowAliases (.union [.plain "Row", .union [.plain "Id", .str "x"]])).alternatives =
        [row, .plain "int", .plain "string", .str "x"] := by
  intro id row
  have hlimit : reportsLimit rowAliases (.union [.plain "Row", .union [.plain "Id", .str "x"]]) =
      false := by rfl
  have hparts : [.plain "Row", .plain "Id", .str "x"].flatMap
      (fun u => (expand rowAliases u).alternatives) =
        [row, .plain "int", .plain "string", .str "x"] := by rfl
  exact ⟨hlimit, hparts, (alternatives_expand rowAliases _ hlimit).trans hparts⟩

end ArrayShapes.Doc
