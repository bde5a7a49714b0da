/-
The archive modes of a query (`query/process.rs`; `query.rs`, `Archive`).

`Include` starts from the entities in the archive too, but only a filter by name keeps any of them and only `Map::All`
reads them. `Only` starts from the entities in memory and never looks at the archive.

- `mapQuery_spec`: the mapped data of a query without a limit, in terms of what is stored;
- `archive_modes_iff`: when `Include` answers as if everything were in memory, and `Only` as if nothing else were there;
- `archived_left_out`: a component filter leaves out an archived entity, and `Only` answers with one in memory.
-/
import BigWorlds.Query.Filtering

namespace BigWorlds

/-! ## What a query maps -/

/-- a filter by name, with this name -/
def Filter.Names (name : EntityName) : Filter → Prop
  | .name names => name ∈ names
  | _ => False

/-- the filters select the entity and the mappings take the variable -/
def Query.Takes (format : Var → String) (q : Query) (store : FnvHashMap EntityName Entity) (k : NativeAddress) : Prop :=
  Satisfies format store (sinceComponent q.filters) k.1 ∧ takesAny q.mappings k.2 = true

/-- filters, on variables of their type in the store, and mappings are implemented -/
structure Query.Implemented (q : Query) (store : FnvHashMap EntityName Entity) : Prop where
  filters : ∀ f ∈ q.filters, f.implemented = true ∧ f.Typed store
  mappings : ∀ mapping ∈ q.mappings, mapping.visit.isSome = true

section
variable {format : Var → String} {now : UInt32} {part : Partition} {order : part.Order} {q : Query}

theorem Partition.Order.mem_archive (order : part.Order) {name : EntityName} :
    name ∈ order.archive ↔ name ∈ part.inArchive := by
  rw [← Multiset.mem_coe, order.archiveComplete, Finset.mem_val]
  unfold Partition.inArchive
  cases part.archive with
  | none => exact iff_of_false (Finset.notMem_empty name) Finmap.notMem_empty
  | some a => exact Finmap.mem_keys

/-- the archived entities that the filters leave -/
theorem mem_foldl_listedArchived {archive : Archive} {filters : List Filter} {names : List EntityName}
    (hnames : archive = .ignore → names = []) {name : EntityName} :
    name ∈ filters.foldl (fun names f => f.listedArchived archive names) names ↔
      name ∈ names ∧ ∀ f ∈ filters, f.Names name := by
  induction filters generalizing names with
  | nil => simp
  | cons f filters ih =>
    have hlisted : name ∈ f.listedArchived archive names ↔ name ∈ names ∧ f.Names name := by
      cases f with
      | name desired =>
        by_cases hignore : archive = .ignore
        · simp [Filter.listedArchived, hignore, hnames hignore]
        · simp [Filter.listedArchived, Filter.Names, hignore, and_comm]
      | _ => simp [Filter.listedArchived, Filter.Names]
    have hignored : archive = .ignore → f.listedArchived archive names = [] := by
      intro hignore
      cases f <;> simp [Filter.listedArchived, hignore]
    rw [List.foldl_cons, ih hignored, hlisted, List.forall_mem_cons, and_assoc]

/-- what the first selection has of the archive -/
theorem mem_initialSelection_archived {sel : Selection} (h : initialSelection part order q = .ok sel)
    {name : EntityName} : name ∈ sel.archived ↔ q.archive = .include_ ∧ name ∈ part.inArchive := by
  unfold initialSelection at h
  by_cases hinclude : q.archive = .include_
  · rw [if_pos hinclude] at h
    split at h
    · obtain rfl := Except.ok.inj h
      rw [order.mem_archive, and_iff_right hinclude]
    · cases h
  · rw [if_neg hinclude] at h
    obtain rfl := Except.ok.inj h
    simp [hinclude]

/-- **The mapped data of a query.** Without a limit they are the values in memory of what the query takes, and under
`Include` with `Map::All` those of archived entities that every filter names, where memory has none. -/
theorem mapQuery_spec (himpl : q.Implemented part.entities) (hlimit : q.limits.entities = none)
    (harchive : q.archive = .include_ → part.archive.isSome = true) :
    ∃ part' mapped, mapQuery format now part order q = (part', .ok mapped) ∧ part.SameHoldings part' ∧
      ∀ k v, mapped.lookup k = some v ↔
        (q.Takes format part.entities k ∧ valueOf part.entities k = some v) ∨
          ((q.Takes format part.entities k → valueOf part.entities k = none) ∧ q.archive = .include_ ∧
            .all ∈ q.mappings ∧ (∀ f ∈ q.filters, f.Names k.1) ∧ valueOf part.inArchive k = some v) := by
  obtain ⟨sel₀, hsel₀⟩ := (@initialSelection_isOk part order q).mpr harchive
  have hcut : q.entityLimit = none := by rw [Query.entityLimit, hlimit, Option.map_none]
  have hsel := @selectEntities_eq format part order q himpl.filters _ hsel₀
  rw [hcut] at hsel
  obtain ⟨part', mapped, hrun, hsame, hlookup⟩ := applyMappings_spec himpl.mappings q.archive now
    ⟨q.filters.foldl (fun names f => cut none (f.listed format part order none names)) sel₀.entities,
      q.filters.foldl (fun names f => cut none (f.listedArchived q.archive names)) sel₀.archived⟩ part ∅
  have hmemory : ∀ name, name ∈ q.filters.foldl (fun names f => cut none (f.listed format part order none names))
      sel₀.entities ↔ Satisfies format part.entities (sinceComponent q.filters) name := by
    intro name
    rw [initialSelection_entities hsel₀]
    exact mem_foldl_order fun f hf => (himpl.filters f hf).1
  have hempty : q.archive = .ignore → sel₀.archived = [] := by
    intro hignore
    refine List.eq_nil_iff_forall_not_mem.mpr fun name h => ?_
    have hinclude := ((mem_initialSelection_archived hsel₀).mp h).1
    exact absurd (hignore.symm.trans hinclude) (by decide)
  have harchived : ∀ name, name ∈ q.filters.foldl (fun names f => cut none (f.listedArchived q.archive names))
      sel₀.archived ↔ (q.archive = .include_ ∧ name ∈ part.inArchive) ∧ ∀ f ∈ q.filters, f.Names name := by
    intro name
    refine (mem_foldl_listedArchived hempty).trans ?_
    rw [mem_initialSelection_archived hsel₀]
  refine ⟨part', mapped, ?_, hsame, fun k v => ?_⟩
  · unfold mapQuery
    rw [hsel]
    exact hrun
  · have hnone : ∀ o : Option Var, (o <|> (∅ : MappedMap).lookup k) = o := fun o => by cases o <;> rfl
    rw [hlookup k, hnone, mappedValue_eq_some]
    dsimp only
    rw [hmemory, harchived]
    constructor
    · intro h
      rcases h with ⟨hsat, htakes, hv⟩ | ⟨hmiss, ⟨⟨hinclude, -⟩, hnames⟩, hall, -, hv⟩
      · exact Or.inl ⟨⟨hsat, htakes⟩, hv⟩
      · exact Or.inr ⟨fun htakes => hmiss htakes.1 htakes.2, hinclude, hall, hnames, hv⟩
    · intro h
      rcases h with ⟨⟨hsat, htakes⟩, hv⟩ | ⟨hmiss, hinclude, hall, hnames, hv⟩
      · exact Or.inl ⟨hsat, htakes, hv⟩
      · refine Or.inr ⟨fun hsat htakes => hmiss ⟨hsat, htakes⟩, ⟨⟨hinclude, ?_⟩, hnames⟩, hall, ?_, hv⟩
        · obtain ⟨e, he, -⟩ := Option.bind_eq_some_iff.mp hv
          exact Finmap.mem_of_lookup_eq_some he
        · rw [hinclude]
          decide

/-- `Include` without an archive fails -/
theorem mapQuery_archiveDisabled (hinclude : q.archive = .include_) (hnone : part.archive = none) :
    mapQuery format now part order q = (part, .error .archiveDisabled) := by
  have hfail : initialSelection part order q = .error .archiveDisabled := by
    rw [initialSelection, if_pos hinclude, hnone]
  have hselect : selectEntities format part order q = .error .archiveDisabled := by
    unfold selectEntities
    rw [hfail]
    rfl
  unfold mapQuery
  rw [hselect]

/-- a query that does not include the archive maps what it takes in memory -/
theorem mapQuery_plain (himpl : q.Implemented part.entities) (hlimit : q.limits.entities = none)
    (hplain : q.archive ≠ .include_) :
    ∃ part' mapped, mapQuery format now part order q = (part', .ok mapped) ∧ part.SameHoldings part' ∧
      ∀ k v, mapped.lookup k = some v ↔ q.Takes format part.entities k ∧ valueOf part.entities k = some v := by
  obtain ⟨part', mapped, hrun, hsame, hlookup⟩ :=
    @mapQuery_spec format now part order q himpl hlimit fun h => absurd h hplain
  refine ⟨part', mapped, hrun, hsame, fun k v => (hlookup k v).trans ?_⟩
  constructor
  · intro h
    rcases h with h | h
    · exact h
    · exact absurd h.2.1 hplain
  · exact Or.inl

/-! ## The modes -/

/-- the partition with all archived entities moved into memory, where a copy in memory stays -/
def Partition.allInMemory (part : Partition) : Partition :=
  { part with entities := part.entities ∪ part.inArchive, archive := part.archive.map fun _ => ∅ }

/-- the partition with nothing but the archived entities, in memory -/
def Partition.onlyArchived (part : Partition) : Partition :=
  { part with entities := part.inArchive, archive := part.archive.map fun _ => ∅ }

def Query.mode (q : Query) (archive : Archive) : Query := { q with archive }

theorem satisfies_congr {store store' : FnvHashMap EntityName Entity} {filters : List Filter} {name : EntityName}
    (h : store.lookup name = store'.lookup name) :
    Satisfies format store filters name ↔ Satisfies format store' filters name := by
  unfold Satisfies
  rw [h]

theorem takes_congr {store store' : FnvHashMap EntityName Entity} {k : NativeAddress}
    (h : store.lookup k.1 = store'.lookup k.1) : q.Takes format store k ↔ q.Takes format store' k :=
  and_congr_left' (satisfies_congr h)

theorem valueOf_congr {store store' : FnvHashMap EntityName Entity} {k : NativeAddress}
    (h : store.lookup k.1 = store'.lookup k.1) : valueOf store k = valueOf store' k := by
  unfold valueOf
  rw [h]

theorem Query.Implemented.union {store store' : FnvHashMap EntityName Entity} (h : q.Implemented store)
    (h' : q.Implemented store') : q.Implemented (store ∪ store') := by
  refine ⟨fun f hf => ⟨(h.filters f hf).1, ?_⟩, h.mappings⟩
  have htyped := (h.filters f hf).2
  have htyped' := (h'.filters f hf).2
  cases f with
  | varRange addr low high =>
    intro name e var he hvar
    by_cases hmem : name ∈ store
    · rw [Finmap.lookup_union_left hmem] at he
      exact htyped name e var he hvar
    · rw [Finmap.lookup_union_right hmem] at he
      exact htyped' name e var he hvar
  | _ => trivial

variable (format now part order q)

/-- `Include` answers as `Ignore` does with everything in memory, `Only` as `Ignore` does with nothing but the archived
entities, and no mode moves an entity -/
structure ArchiveModes (allOrder : part.allInMemory.Order) (archivedOrder : part.onlyArchived.Order) : Prop where
  include_ : (mapQuery format now part order (q.mode .include_)).2 =
    (mapQuery format now part.allInMemory allOrder (q.mode .ignore)).2
  only : (mapQuery format now part order (q.mode .only)).2 =
    (mapQuery format now part.onlyArchived archivedOrder (q.mode .ignore)).2
  residence : ∀ archive, part.SameHoldings (mapQuery format now part order (q.mode archive)).1

/-- what `Include` needs: the archive is there; of an entity that is in the archive only, the query takes nothing, or
it maps all and every filter names the entity; and of an entity in both places the copy in memory has each variable
that is mapped from the archive -/
structure IncludeComplete : Prop where
  archive : part.archive.isSome = true
  archivedOnly : ∀ k, k.1 ∉ part.entities → q.Takes format part.inArchive k →
    (valueOf part.inArchive k).isSome = true → .all ∈ q.mappings ∧ ∀ f ∈ q.filters, f.Names k.1
  both : ∀ k, k.1 ∈ part.entities → .all ∈ q.mappings → (∀ f ∈ q.filters, f.Names k.1) →
    (valueOf part.inArchive k).isSome = true → (valueOf part.entities k).isSome = true

/-- what `Only` needs: the query takes the same values in memory and in the archive -/
def OnlySame : Prop :=
  ∀ k v, (q.Takes format part.entities k ∧ valueOf part.entities k = some v) ↔
    (q.Takes format part.inArchive k ∧ valueOf part.inArchive k = some v)

variable {format now part order q}

/-- filters that name an entity in memory select it -/
theorem satisfies_of_names {store : FnvHashMap EntityName Entity} {filters : List Filter} {name : EntityName}
    (hmem : name ∈ store) (h : ∀ f ∈ filters, f.Names name) : Satisfies format store (sinceComponent filters) name := by
  obtain ⟨e, he⟩ := Finmap.mem_iff.mp hmem
  refine ⟨e, he, fun f hf => ?_⟩
  have hname := h f (sinceComponent_subset hf)
  cases f with
  | name names => exact decide_eq_true hname
  | _ => exact hname.elim

theorem mapped_eq_iff {m m' : MappedMap} : m = m' ↔ ∀ k v, m.lookup k = some v ↔ m'.lookup k = some v := by
  constructor
  · intro h k v
    rw [h]
  · intro h
    exact Finmap.ext_lookup fun k => Option.ext (h k)

/-- `Include` with an archive -/
theorem include_iff (hmem : q.Implemented part.entities) (harch : q.Implemented part.inArchive)
    (hlimit : q.limits.entities = none) (harchive : part.archive.isSome = true)
    (allOrder : part.allInMemory.Order) :
    (mapQuery format now part order (q.mode .include_)).2 =
        (mapQuery format now part.allInMemory allOrder (q.mode .ignore)).2 ↔ IncludeComplete format part q := by
  obtain ⟨p₁, m₁, hrun₁, -, h₁⟩ := @mapQuery_spec format now part order (q.mode .include_)
    ⟨hmem.filters, hmem.mappings⟩ hlimit fun _ => harchive
  obtain ⟨p₂, m₂, hrun₂, -, h₂⟩ := @mapQuery_plain format now part.allInMemory allOrder (q.mode .ignore)
    ⟨(hmem.union harch).filters, hmem.mappings⟩ hlimit (by simp [Query.mode])
  have hvalue : ∀ k, k.1 ∉ part.entities → valueOf part.entities k = none := by
    intro k hk
    rw [valueOf, Finmap.lookup_eq_none.mpr hk, Option.bind_none]
  -- an entity in memory is the same in both partitions, another one is the archived copy
  have hin : ∀ k, k.1 ∈ part.entities → ∀ v, m₂.lookup k = some v ↔
      q.Takes format part.entities k ∧ valueOf part.entities k = some v := by
    intro k hk v
    have hlookup := @Finmap.lookup_union_left _ _ _ k.1 part.entities part.inArchive hk
    refine (h₂ k v).trans (and_congr (takes_congr hlookup) ?_)
    rw [Partition.allInMemory, valueOf_congr hlookup]
  have hout : ∀ k, k.1 ∉ part.entities → ∀ v, m₂.lookup k = some v ↔
      q.Takes format part.inArchive k ∧ valueOf part.inArchive k = some v := by
    intro k hk v
    have hlookup := @Finmap.lookup_union_right _ _ _ k.1 part.entities part.inArchive hk
    refine (h₂ k v).trans (and_congr (takes_congr hlookup) ?_)
    rw [Partition.allInMemory, valueOf_congr hlookup]
  have hall : .all ∈ q.mappings → ∀ idx, takesAny q.mappings idx = true :=
    fun h idx => List.any_eq_true.mpr ⟨.all, h, rfl⟩
  rw [hrun₁, hrun₂, Except.ok.injEq, mapped_eq_iff]
  constructor
  · intro h
    refine ⟨harchive, fun k hk htakes hsome => ?_, fun k hk hmapsAll hnames hsome => ?_⟩
    · obtain ⟨v, hv⟩ := Option.isSome_iff_exists.mp hsome
      rcases (h₁ k v).mp ((h k v).mpr ((hout k hk v).mpr ⟨htakes, hv⟩)) with ⟨-, hv'⟩ | ⟨-, -, hmapsAll, hnames, -⟩
      · exact absurd (hv'.symm.trans (hvalue k hk)) (by simp)
      · exact ⟨hmapsAll, hnames⟩
    · obtain ⟨v, hv⟩ := Option.isSome_iff_exists.mp hsome
      by_contra hnone
      have hnone' : valueOf part.entities k = none := by simpa using hnone
      have hmapped := (h k v).mp ((h₁ k v).mpr (Or.inr ⟨fun _ => hnone', rfl, hmapsAll, hnames, hv⟩))
      exact absurd (((hin k hk v).mp hmapped).2.symm.trans hnone') (by simp)
  · intro h k v
    rw [h₁ k v]
    by_cases hk : k.1 ∈ part.entities
    · rw [hin k hk v]
      constructor
      · intro h'
        rcases h' with h' | ⟨hmiss, -, hmapsAll, hnames, hv⟩
        · exact h'
        · have hsome := h.both k hk hmapsAll hnames (by rw [hv]; rfl)
          rw [hmiss ⟨satisfies_of_names hk hnames, hall hmapsAll k.2⟩] at hsome
          cases hsome
      · exact Or.inl
    · rw [hout k hk v]
      constructor
      · intro h'
        rcases h' with ⟨-, hv⟩ | ⟨-, -, hmapsAll, hnames, hv⟩
        · exact absurd (hv.symm.trans (hvalue k hk)) (by simp)
        · obtain ⟨e, he, -⟩ := Option.bind_eq_some_iff.mp hv
          exact ⟨⟨satisfies_of_names (Finmap.mem_of_lookup_eq_some he) hnames, hall hmapsAll k.2⟩, hv⟩
      · rintro ⟨htakes, hv⟩
        obtain ⟨hmapsAll, hnames⟩ := h.archivedOnly k hk htakes (by rw [hv]; rfl)
        exact Or.inr ⟨fun _ => hvalue k hk, rfl, hmapsAll, hnames, hv⟩

theorem only_iff (hmem : q.Implemented part.entities) (harch : q.Implemented part.inArchive)
    (hlimit : q.limits.entities = none) (archivedOrder : part.onlyArchived.Order) :
    (mapQuery format now part order (q.mode .only)).2 =
        (mapQuery format now part.onlyArchived archivedOrder (q.mode .ignore)).2 ↔ OnlySame format part q := by
  obtain ⟨p₁, m₁, hrun₁, -, h₁⟩ := @mapQuery_plain format now part order (q.mode .only)
    ⟨hmem.filters, hmem.mappings⟩ hlimit (by simp [Query.mode])
  obtain ⟨p₂, m₂, hrun₂, -, h₂⟩ := @mapQuery_plain format now part.onlyArchived archivedOrder (q.mode .ignore)
    ⟨harch.filters, harch.mappings⟩ hlimit (by simp [Query.mode])
  rw [hrun₁, hrun₂, Except.ok.injEq, mapped_eq_iff]
  exact forall_congr' fun k => forall_congr' fun v => iff_congr (h₁ k v) (h₂ k v)

/-- no mode moves an entity -/
theorem mapQuery_same (hmem : q.Implemented part.entities) (hlimit : q.limits.entities = none) (archive : Archive) :
    part.SameHoldings (mapQuery format now part order (q.mode archive)).1 := by
  by_cases hok : archive = .include_ → part.archive.isSome = true
  · obtain ⟨part', mapped, hrun, hsame, -⟩ := @mapQuery_spec format now part order (q.mode archive)
      ⟨hmem.filters, hmem.mappings⟩ hlimit hok
    rw [hrun]
    exact hsame
  · push Not at hok
    obtain ⟨hinclude, hnone⟩ := hok
    rw [mapQuery_archiveDisabled hinclude (by simpa using hnone)]
    exact Partition.SameHoldings.refl part

variable (format now part order q)

/-- **The archive modes.** For implemented filters, on variables of their type, and implemented mappings, and no limit:
no mode moves an entity, `Include` answers as if all archived entities were in memory, and `Only` as if the archived
entities were all there is, if and only if `IncludeComplete` and `OnlySame` hold. -/
theorem archive_modes_iff (allOrder : part.allInMemory.Order) (archivedOrder : part.onlyArchived.Order)
    (hmem : q.Implemented part.entities) (harch : q.Implemented part.inArchive) (hlimit : q.limits.entities = none) :
    ArchiveModes format now part order q allOrder archivedOrder ↔
      IncludeComplete format part q ∧ OnlySame format part q := by
  constructor
  · intro h
    have harchive : part.archive.isSome = true := by
      by_contra hnone
      obtain ⟨p, m, hrun, -⟩ := @mapQuery_plain format now part.allInMemory allOrder (q.mode .ignore)
        ⟨(hmem.union harch).filters, hmem.mappings⟩ hlimit (by simp [Query.mode])
      have hinclude := h.include_
      rw [hrun, mapQuery_archiveDisabled rfl (by simpa using hnone)] at hinclude
      cases hinclude
    exact ⟨(include_iff hmem harch hlimit harchive allOrder).mp h.include_,
      (only_iff hmem harch hlimit archivedOrder).mp h.only⟩
  · rintro ⟨hinclude, honly⟩
    exact ⟨(include_iff hmem harch hlimit hinclude.archive allOrder).mpr hinclude,
      (only_iff hmem harch hlimit archivedOrder).mpr honly, mapQuery_same hmem hlimit⟩

end

/-! ## An archived moon -/

/-- a planet in memory and its moon in the archive -/
def planetAndMoon : Partition :=
  .holding [("planet", .made ["physics"] [(("physics", "mass"), .int 3)])]
    (some [("moon", .made ["physics"] [(("physics", "mass"), .int 1)])])

def planetAndMoonOrder : planetAndMoon.Order := ⟨["planet"], ["moon"], by decide, by decide⟩

def planetAndMoonAll : planetAndMoon.allInMemory.Order := ⟨["planet", "moon"], [], by decide, by decide⟩

def planetAndMoonArchived : planetAndMoon.onlyArchived.Order := ⟨["moon"], [], by decide, by decide⟩

theorem implemented_component (comp : CompName) (store : FnvHashMap EntityName Entity) :
    (queryFor [.component comp]).Implemented store :=
  ⟨by simp [queryFor, Filter.implemented, Filter.Typed], by simp [queryFor, Mapping.visit]⟩

theorem archived_left_out : ¬ ∀ (format : Var → String) (now : UInt32) (part : Partition) (order : part.Order)
    (q : Query) (allOrder : part.allInMemory.Order) (archivedOrder : part.onlyArchived.Order),
    part.archive.isSome = true → q.Implemented part.entities → q.Implemented part.inArchive →
      q.limits.entities = none → ArchiveModes format now part order q allOrder archivedOrder := by
  intro h
  have hmodes := h (fun _ => "") 0 planetAndMoon planetAndMoonOrder (queryFor [.component "physics"])
    planetAndMoonAll planetAndMoonArchived rfl (implemented_component _ _) (implemented_component _ _) rfl
  have hcomplete := (include_iff (implemented_component _ _) (implemented_component _ _) rfl rfl
    planetAndMoonAll).mp hmodes.include_
  -- the component filter selects the moon, and does not name it
  have hmoon := hcomplete.archivedOnly ("moon", "physics", "mass") (by decide)
    ⟨⟨_, rfl, by simp [queryFor, sinceComponent, Filter.passes]; decide⟩, rfl⟩ rfl
  exact hmoon.2 (.component "physics") List.mem_cons_self

theorem archive_modes_iff_planetAndMoon :
    ArchiveModes (fun _ => "") 0 planetAndMoon planetAndMoonOrder (queryFor [.component "physics"]) planetAndMoonAll
        planetAndMoonArchived ↔
      IncludeComplete (fun _ => "") planetAndMoon (queryFor [.component "physics"]) ∧
        OnlySame (fun _ => "") planetAndMoon (queryFor [.component "physics"]) :=
  archive_modes_iff (fun _ => "") 0 planetAndMoon planetAndMoonOrder (queryFor [.component "physics"])
    planetAndMoonAll planetAndMoonArchived (implemented_component _ _) (implemented_component _ _) rfl

end BigWorlds
