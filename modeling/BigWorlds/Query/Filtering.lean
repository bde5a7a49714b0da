/-
What the filters of a query select in memory (`query/process.rs`, the loop over the filters).

A filter narrows the selection before it, except for the component filter, which takes its entities from the whole
store: whatever was filtered before is forgotten.

- `selectEntities_eq`: implemented filters on variables of their type never fail, and each selection is a fold;
- `filters_conjunctive_iff`: without a limit the selection is the conjunction of all filters exactly if what passes the
  last component filter and the filters after it passes those before it too;
- `component_forgets`: a filter by name in front of a component filter selects an entity of another name.
-/
import BigWorlds.Query.Process

namespace BigWorlds

section
variable (format : Var → String)

/-! ## What filters mean -/

def Filter.passes (name : EntityName) (e : Entity) : Filter → Bool
  | .name names => name ∈ names
  | .allComponents names => e.hasAll names
  | .component comp => e.hasAll [comp]
  | .node _ => true
  | .varRange addr low high =>
    match e.between format addr low high with
    | .ok inside => inside
    | .error _ => false
  | _ => false

/-- the filters with an arm of their own, ranges of strings, integers and floats among them -/
def Filter.implemented : Filter → Bool
  | .name _ | .allComponents _ | .component _ | .node _ => true
  | .varRange addr _ _ => addr.varType ∈ [VarType.string, .int, .float]
  | _ => false

/-- the variable of a range has the type of its address, in each entity that has it -/
def Filter.Typed (store : FnvHashMap EntityName Entity) : Filter → Prop
  | .varRange addr _ _ => ∀ name e var, store.lookup name = some e →
      e.storage.map.lookup addr.asStorageIndex = some var → var.getType = addr.varType
  | _ => True

/-- the entity is in the store and satisfies every filter -/
def Satisfies (store : FnvHashMap EntityName Entity) (filters : List Filter) (name : EntityName) : Prop :=
  ∃ e, store.lookup name = some e ∧ ∀ f ∈ filters, f.passes format name e = true

/-! ## The loops -/

/-- the entities that a filter lists, of those selected before it -/
def Filter.listed (part : Partition) (order : part.Order) (limit : Option ℕ) (names : List EntityName) :
    Filter → List EntityName
  | .name desired => desired.filter (· ∈ names)
  | .component comp => retainComponent part comp limit [] order.entities
  | .node _ => names
  | f => names.filter fun name => (part.entities.lookup name).any (f.passes format name)

/-- the archived entities that a filter lists -/
def Filter.listedArchived (archive : Archive) (names : List EntityName) : Filter → List EntityName
  | .name desired => if archive = .ignore then [] else desired.filter (· ∈ names)
  | _ => []

def cut (limit : Option ℕ) (names : List EntityName) : List EntityName :=
  match limit with
  | some n => names.take n
  | none => names

variable {format} {part : Partition} {order : part.Order} {q : Query}

theorem Var.getType_list (l : List Var) : (Var.list l).getType ≠ .int ∧ (Var.list l).getType ≠ .float := by
  cases l with
  | nil => exact ⟨by decide, by decide⟩
  | cons first l =>
    simp only [Var.getType]
    split <;> exact ⟨by decide, by decide⟩

theorem Var.getType_grid (g : List (List Var)) : (Var.grid g).getType ≠ .int ∧ (Var.grid g).getType ≠ .float := by
  cases g with
  | nil => exact ⟨by decide, by decide⟩
  | cons row g =>
    cases row with
    | nil => simp [Var.getType]
    | cons first row =>
      simp only [Var.getType]
      split <;> exact ⟨by decide, by decide⟩

theorem Var.eq_int_of_getType {var : Var} (h : var.getType = .int) : ∃ v, var = .int v := by
  cases var with
  | int v => exact ⟨v, rfl⟩
  | list l => exact absurd h (Var.getType_list l).1
  | grid g => exact absurd h (Var.getType_grid g).1
  | _ => cases h

theorem Var.eq_float_of_getType {var : Var} (h : var.getType = .float) : ∃ v, var = .float v := by
  cases var with
  | float v => exact ⟨v, rfl⟩
  | list l => exact absurd h (Var.getType_list l).2
  | grid g => exact absurd h (Var.getType_grid g).2
  | _ => cases h

theorem between_eq (format : Var → String) {e : Entity} {addr : LocalAddress} (low high : Var)
    (htype : addr.varType ∈ [VarType.string, .int, .float])
    (htyped : ∀ var, e.storage.map.lookup addr.asStorageIndex = some var → var.getType = addr.varType)
    (name : EntityName) :
    e.between format addr low high = .ok ((Filter.varRange addr low high).passes format name e) := by
  have hok : ∃ inside, e.between format addr low high = .ok inside := by
    unfold Entity.between
    cases hv : e.storage.map.lookup addr.asStorageIndex with
    | none => exact ⟨false, rfl⟩
    | some var =>
      have hvar := htyped var hv
      simp only [List.mem_cons, List.not_mem_nil, or_false] at htype
      rcases htype with h | h | h
      · exact ⟨_, by rw [h]; rfl⟩
      · obtain ⟨v, rfl⟩ := Var.eq_int_of_getType (hvar.trans h)
        exact ⟨_, by rw [h]; rfl⟩
      · obtain ⟨v, rfl⟩ := Var.eq_float_of_getType (hvar.trans h)
        exact ⟨_, by rw [h]; rfl⟩
  obtain ⟨inside, hinside⟩ := hok
  simp only [Filter.passes, hinside]

theorem retainBetween_eq {addr : LocalAddress} (low high : Var) (htype : addr.varType ∈ [VarType.string, .int, .float])
    (htyped : (Filter.varRange addr low high).Typed part.entities) (names : List EntityName) :
    retainBetween format part addr low high names =
      .ok (names.filter fun name =>
        (part.entities.lookup name).any ((Filter.varRange addr low high).passes format name)) := by
  induction names with
  | nil => rfl
  | cons name names ih =>
    unfold retainBetween
    rw [ih]
    cases he : part.entities.lookup name with
    | none => simp [he, bind, Except.bind, pure, Except.pure]
    | some e =>
      have hinside := between_eq format low high htype (fun var hvar => htyped name e var he hvar) name
      dsimp only
      rw [hinside]
      simp only [bind, Except.bind, pure, Except.pure, List.filter_cons, he, Option.any_some]

/-- one filter never fails: it lists entities in memory and in the archive -/
theorem retain_eq {f : Filter} (himpl : f.implemented = true) (htyped : f.Typed part.entities) (sel : Selection) :
    f.retain format part order q sel =
      .ok ⟨f.listed format part order q.entityLimit sel.entities, f.listedArchived q.archive sel.archived⟩ := by
  cases f with
  | varRange addr low high =>
    have htype : addr.varType ∈ [VarType.string, .int, .float] := by simpa [Filter.implemented] using himpl
    simp only [Filter.retain]
    rw [retainBetween_eq low high htype htyped]
    rfl
  | allComponents names => rfl
  | component comp => rfl
  | name names => rfl
  | node node => rfl
  | _ => cases himpl

/-- **The loop over the filters.** Each of the two selections is a fold of its own. -/
theorem selectEntities_eq (h : ∀ f ∈ q.filters, f.implemented = true ∧ f.Typed part.entities) {sel : Selection}
    (hsel : initialSelection part order q = .ok sel) :
    selectEntities format part order q =
      .ok ⟨q.filters.foldl (fun names f => cut q.entityLimit (f.listed format part order q.entityLimit names))
          sel.entities,
        q.filters.foldl (fun names f => cut q.entityLimit (f.listedArchived q.archive names)) sel.archived⟩ := by
  have hloop : ∀ (filters : List Filter) (sel : Selection),
      (∀ f ∈ filters, f.implemented = true ∧ f.Typed part.entities) →
      filters.foldlM (applyFilter format part order q) sel =
        .ok ⟨filters.foldl (fun names f => cut q.entityLimit (f.listed format part order q.entityLimit names))
            sel.entities,
          filters.foldl (fun names f => cut q.entityLimit (f.listedArchived q.archive names)) sel.archived⟩ := by
    intro filters
    induction filters with
    | nil => exact fun sel _ => rfl
    | cons f filters ih =>
      intro sel h
      obtain ⟨himpl, htyped⟩ := h f List.mem_cons_self
      have hturn : applyFilter format part order q sel f =
          .ok ⟨cut q.entityLimit (f.listed format part order q.entityLimit sel.entities),
            cut q.entityLimit (f.listedArchived q.archive sel.archived)⟩ := by
        unfold applyFilter
        rw [retain_eq himpl htyped]
        simp only [bind, Except.bind, pure, Except.pure, Selection.truncate, cut]
        cases q.entityLimit <;> rfl
      rw [List.foldlM_cons, hturn]
      exact ih _ fun f' hf' => h f' (List.mem_cons_of_mem _ hf')
  unfold selectEntities
  rw [hsel]
  exact hloop q.filters sel h

/-! ## Without a limit -/

theorem retainComponent_none (comp : CompName) (kept names : List EntityName) :
    retainComponent part comp none kept names = kept ++ names.filter (part.hasAll [comp]) := by
  induction names generalizing kept with
  | nil => simp [retainComponent]
  | cons name names ih =>
    unfold retainComponent
    split_ifs with hname hlimit
    · simp at hlimit
    · rw [ih, List.filter_cons_of_pos hname, List.append_assoc, List.singleton_append]
    · rw [ih, List.filter_cons_of_neg hname]

def Filter.isComponent : Filter → Bool
  | .component _ => true
  | _ => false

/-- the filters from the last component filter on, all of them if there is none -/
def sinceComponent : List Filter → List Filter
  | [] => []
  | f :: filters => if filters.any Filter.isComponent then sinceComponent filters else f :: filters

theorem sinceComponent_eq {filters : List Filter} (h : filters.any Filter.isComponent = false) :
    sinceComponent filters = filters := by
  cases filters with
  | nil => rfl
  | cons f filters =>
    rw [List.any_cons, Bool.or_eq_false_iff] at h
    rw [sinceComponent, h.2]
    rfl

theorem sinceComponent_subset {filters : List Filter} {f : Filter} (h : f ∈ sinceComponent filters) : f ∈ filters := by
  induction filters with
  | nil => exact h
  | cons g filters ih =>
    unfold sinceComponent at h
    split_ifs at h
    · exact List.mem_cons_of_mem _ (ih h)
    · exact h

theorem initialSelection_entities {sel : Selection} (h : initialSelection part order q = .ok sel) :
    sel.entities = order.entities := by
  unfold initialSelection at h
  split_ifs at h
  · split at h
    · exact (Except.ok.inj h) ▸ rfl
    · cases h
  · exact (Except.ok.inj h) ▸ rfl

/-- the first selection fails where the archive is included and off -/
theorem initialSelection_isOk :
    (∃ sel, initialSelection part order q = .ok sel) ↔ (q.archive = .include_ → part.archive.isSome = true) := by
  unfold initialSelection
  cases harchive : part.archive with
  | none => by_cases hq : q.archive = .include_ <;> simp [hq]
  | some a => by_cases hq : q.archive = .include_ <;> simp [hq]

theorem initialSelection_of_ok {sel : Selection} (h : selectEntities format part order q = .ok sel) :
    ∃ sel₀, initialSelection part order q = .ok sel₀ := by
  unfold selectEntities at h
  cases hinit : initialSelection part order q with
  | error e =>
    rw [hinit] at h
    cases h
  | ok sel₀ => exact ⟨sel₀, rfl⟩

/-- what a filter lists, of names that are in memory -/
theorem mem_listed {f : Filter} (himpl : f.implemented = true) {names : List EntityName} {name : EntityName}
    (hmem : name ∈ part.entities) :
    name ∈ f.listed format part order none names ↔
      (f.isComponent = true ∨ name ∈ names) ∧ ∀ e, part.entities.lookup name = some e →
        f.passes format name e = true := by
  obtain ⟨e, he⟩ := Finmap.mem_iff.mp hmem
  have hall : name ∈ order.entities := order.mem_entities.mpr hmem
  cases f with
  | component comp =>
    simp [Filter.listed, retainComponent_none, Filter.isComponent, Filter.passes, Partition.hasAll, he, hall]
  | name desired => simp [Filter.listed, Filter.isComponent, Filter.passes, he, and_comm]
  | node node => simp [Filter.listed, Filter.isComponent, Filter.passes]
  | allComponents comps => simp [Filter.listed, Filter.isComponent, Filter.passes, he]
  | varRange addr low high => simp [Filter.listed, Filter.isComponent, he]
  | _ => cases himpl

theorem retainComponent_subset (comp : CompName) (limit : Option ℕ) {kept names : List EntityName} {name : EntityName}
    (h : name ∈ retainComponent part comp limit kept names) : name ∈ kept ∨ part.hasAll [comp] name = true := by
  induction names generalizing kept with
  | nil => exact Or.inl h
  | cons n names ih =>
    have hkept : ∀ {l : List EntityName}, part.hasAll [comp] n = true →
        name ∈ l ++ [n] → name ∈ l ∨ part.hasAll [comp] name = true := by
      intro l hn hin
      rcases List.mem_append.mp hin with hin | hin
      · exact Or.inl hin
      · exact Or.inr (List.mem_singleton.mp hin ▸ hn)
    unfold retainComponent at h
    split_ifs at h with hn hlimit
    · exact hkept hn h
    · rcases ih h with hin | hin
      · exact hkept hn hin
      · exact Or.inr hin
    · exact ih h

theorem mem_entities_of_hasAll {comps : List CompName} {name : EntityName} (h : part.hasAll comps name = true) :
    name ∈ part.entities := by
  unfold Partition.hasAll at h
  cases he : part.entities.lookup name with
  | none => simp [he] at h
  | some e => exact Finmap.mem_of_lookup_eq_some he

/-- a filter lists names that are in memory -/
theorem listed_subset {f : Filter} (himpl : f.implemented = true) {limit : Option ℕ} {names : List EntityName}
    (hnames : ∀ name ∈ names, name ∈ part.entities) {name : EntityName}
    (h : name ∈ f.listed format part order limit names) : name ∈ part.entities := by
  cases f with
  | component comp =>
    rcases retainComponent_subset comp limit h with hin | hhas
    · cases hin
    · exact mem_entities_of_hasAll hhas
  | name desired => exact hnames name (of_decide_eq_true (List.mem_filter.mp h).2)
  | node node => exact hnames name h
  | allComponents comps => exact hnames name (List.mem_filter.mp h).1
  | varRange addr low high => exact hnames name (List.mem_filter.mp h).1
  | _ => cases himpl

/-- the entities in memory that filters without a limit select -/
theorem mem_foldl_listed {filters : List Filter} (himpl : ∀ f ∈ filters, f.implemented = true)
    {names : List EntityName} (hnames : ∀ name ∈ names, name ∈ part.entities) {name : EntityName} :
    name ∈ filters.foldl (fun names f => f.listed format part order none names) names ↔
      (filters.any Filter.isComponent = true ∨ name ∈ names) ∧
        Satisfies format part.entities (sinceComponent filters) name := by
  induction filters generalizing names with
  | nil =>
    simp only [List.foldl_nil, List.any_nil, Bool.false_eq_true, false_or, sinceComponent]
    constructor
    · intro h
      obtain ⟨e, he⟩ := Finmap.mem_iff.mp (hnames name h)
      exact ⟨h, e, he, by simp⟩
    · intro h
      exact h.1
  | cons f filters ih =>
    have hf := himpl f List.mem_cons_self
    have hlisted : ∀ n ∈ f.listed format part order none names, n ∈ part.entities :=
      fun n hn => listed_subset hf hnames hn
    rw [List.foldl_cons, ih (fun f' hf' => himpl f' (List.mem_cons_of_mem _ hf')) hlisted]
    by_cases hany : filters.any Filter.isComponent = true
    · simp [hany, sinceComponent]
    · have hsince : sinceComponent filters = filters := sinceComponent_eq (by simpa using hany)
      rw [hsince, sinceComponent, if_neg hany, List.any_cons]
      simp only [hany, Bool.false_eq_true, false_or, Bool.or_false]
      constructor
      · rintro ⟨hin, e, he, hrest⟩
        obtain ⟨hbefore, hpasses⟩ := (mem_listed hf (Finmap.mem_of_lookup_eq_some he)).mp hin
        exact ⟨hbefore, e, he, List.forall_mem_cons.mpr ⟨hpasses e he, hrest⟩⟩
      · rintro ⟨hbefore, e, he, hall⟩
        obtain ⟨hpasses, hrest⟩ := List.forall_mem_cons.mp hall
        refine ⟨(mem_listed hf (Finmap.mem_of_lookup_eq_some he)).mpr ⟨hbefore, fun e' he' => ?_⟩, e, he, hrest⟩
        obtain rfl : e' = e := Option.some.inj (he'.symm.trans he)
        exact hpasses

theorem mem_foldl_order {filters : List Filter} (himpl : ∀ f ∈ filters, f.implemented = true) {name : EntityName} :
    name ∈ filters.foldl (fun names f => f.listed format part order none names) order.entities ↔
      Satisfies format part.entities (sinceComponent filters) name := by
  refine (mem_foldl_listed himpl fun n hn => order.mem_entities.mp hn).trans ?_
  constructor
  · intro h
    exact h.2
  · intro h
    obtain ⟨e, he, -⟩ := id h
    exact ⟨Or.inr (order.mem_entities.mpr (Finmap.mem_of_lookup_eq_some he)), h⟩

/-! ## The conjunction -/

variable (format part order q)

/-- the selection in memory is made, of exactly the entities that satisfy every filter -/
def Conjunctive : Prop :=
  ∃ sel, selectEntities format part order q = .ok sel ∧
    ∀ name, name ∈ sel.entities ↔ Satisfies format part.entities q.filters name

/-- **Conjunctive filters.** Implemented filters on variables of their type select without a limit exactly the entities
in memory that satisfy all of them, if and only if the archive is there where the query includes it, and every entity
that passes the last component filter and the filters after it passes those before it as well. -/
theorem filters_conjunctive_iff (hfilters : ∀ f ∈ q.filters, f.implemented = true ∧ f.Typed part.entities)
    (hlimit : q.limits.entities = none) :
    Conjunctive format part order q ↔
      (q.archive = .include_ → part.archive.isSome = true) ∧
        ∀ name, Satisfies format part.entities (sinceComponent q.filters) name →
          Satisfies format part.entities q.filters name := by
  have hcut : q.entityLimit = none := by rw [Query.entityLimit, hlimit, Option.map_none]
  have hselected : ∀ sel, initialSelection part order q = .ok sel → ∃ sel',
      selectEntities format part order q = .ok sel' ∧
        ∀ name, name ∈ sel'.entities ↔ Satisfies format part.entities (sinceComponent q.filters) name := by
    intro sel hsel
    have hentities : sel.entities = order.entities := initialSelection_entities hsel
    refine ⟨_, selectEntities_eq hfilters hsel, fun name => ?_⟩
    dsimp only
    rw [hcut, hentities]
    exact mem_foldl_order fun f hf => (hfilters f hf).1
  have hsince : ∀ name, Satisfies format part.entities q.filters name →
      Satisfies format part.entities (sinceComponent q.filters) name := by
    intro name ⟨e, he, hall⟩
    exact ⟨e, he, fun f hf => hall f (sinceComponent_subset hf)⟩
  constructor
  · rintro ⟨sel, hsel, hmem⟩
    obtain ⟨sel₀, hsel₀⟩ := initialSelection_of_ok hsel
    obtain ⟨sel', hsel', hmem'⟩ := hselected sel₀ hsel₀
    obtain rfl : sel' = sel := Except.ok.inj (hsel'.symm.trans hsel)
    exact ⟨initialSelection_isOk.1 ⟨sel₀, hsel₀⟩, fun name h => (hmem name).mp ((hmem' name).mpr h)⟩
  · rintro ⟨harchive, hbefore⟩
    obtain ⟨sel₀, hsel₀⟩ := initialSelection_isOk.2 harchive
    obtain ⟨sel', hsel', hmem'⟩ := hselected sel₀ hsel₀
    exact ⟨sel', hsel', fun name => (hmem' name).trans ⟨hbefore name, hsince name⟩⟩

end

/-! ## Two entities -/

/-- an entity with these components and variables -/
def Entity.made (components : List CompName) (vars : List (StorageIndex × Var)) : Entity :=
  ⟨⟨(vars.map fun v => (⟨v.1, v.2⟩ : Σ _ : StorageIndex, Var)).toFinmap⟩, components, ⟨none, none⟩⟩

def Partition.holding (entities : List (EntityName × Entity)) (archive : Option (List (EntityName × Entity))) :
    Partition where
  entities := (entities.map fun e => (⟨e.1, e.2⟩ : Σ _ : EntityName, Entity)).toFinmap
  archive := archive.map fun l => (l.map fun e => (⟨e.1, e.2⟩ : Σ _ : EntityName, Entity)).toFinmap
  behaviors := ∅
  machines := []
  config := .default

/-- a body with a mass, and a spirit -/
def bodyAndSpirit : Partition :=
  .holding [("body", .made ["physics"] [(("physics", "mass"), .int 3)]), ("spirit", .made [] [])] none

def bodyAndSpiritOrder : bodyAndSpirit.Order := ⟨["body", "spirit"], [], by decide, by decide⟩

/-- all the data of what passes the filters -/
def queryFor (filters : List Filter) : Query := ⟨.addressed, .var, filters, [.all], .ignore, ⟨none⟩⟩

theorem component_forgets : ¬ ∀ (format : Var → String) (part : Partition) (order : part.Order) (q : Query),
    (∀ f ∈ q.filters, f.implemented = true ∧ f.Typed part.entities) → q.limits.entities = none →
      Conjunctive format part order q := by
  intro h
  obtain ⟨sel, hsel, hmem⟩ := h (fun _ => "") bodyAndSpirit bodyAndSpiritOrder
    (queryFor [.name ["spirit"], .component "physics"]) (by simp [queryFor, Filter.implemented, Filter.Typed]) rfl
  have hrun : selectEntities (fun _ => "") bodyAndSpirit bodyAndSpiritOrder
      (queryFor [.name ["spirit"], .component "physics"]) = .ok ⟨["body"], []⟩ := by decide
  obtain rfl := Except.ok.inj (hrun.symm.trans hsel)
  obtain ⟨e, -, hall⟩ := (hmem "body").mp (by decide)
  exact absurd (hall (.name ["spirit"]) (by decide)) (by simp [Filter.passes])

theorem filters_conjunctive_iff_bodyAndSpirit :
    Conjunctive (fun _ => "") bodyAndSpirit bodyAndSpiritOrder (queryFor [.component "physics", .name ["spirit"]]) ↔
      (Archive.ignore = .include_ → bodyAndSpirit.archive.isSome = true) ∧
        ∀ name, Satisfies (fun _ => "") bodyAndSpirit.entities
            (sinceComponent [.component "physics", .name ["spirit"]]) name →
          Satisfies (fun _ => "") bodyAndSpirit.entities [.component "physics", .name ["spirit"]] name :=
  filters_conjunctive_iff (fun _ => "") bodyAndSpirit bodyAndSpiritOrder
    (queryFor [.component "physics", .name ["spirit"]]) (by simp [queryFor, Filter.implemented, Filter.Typed]) rfl

end BigWorlds
