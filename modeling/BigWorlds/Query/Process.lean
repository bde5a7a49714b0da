/-
Answering a query on a partition (`query/process.rs`; `query.rs`; the conversions of `var.rs`).

The filters run one after the other over two selections, of entities in memory and of entities in the archive, and the
mappings collect what the selected entities hold. Some filters start from the selection before them, the component
filter starts from all entities in memory; all but the name filter leave nothing of the archived selection.

- `applyFilter`, `applyMappings`: one arm for each filter and mapping; what the source leaves to `todo!()` and
  `unimplemented!()` panics;
- `processQuery`: the partition afterwards, with its accesses stamped, and the product.

The clock is read once for all accesses of a query. The orders in which the maps are iterated are arguments.
-/
import BigWorlds.Query.Language
import BigWorlds.Query.Shape
import BigWorlds.Text.Address
import BigWorlds.Worker.Partition

namespace BigWorlds

/-! ## Queries -/

/-- `query::Archive` -/
inductive Archive where
  | only
  | ignore
  | include_
  | includeAndRestoreSelected
deriving DecidableEq, Repr

/-- `Limits`: the field that is read -/
structure Limits where
  entities : Option UInt32
deriving DecidableEq, Repr

structure Query where
  description : Description
  layout : Layout
  filters : List Filter
  mappings : List Mapping
  archive : Archive
  limits : Limits
deriving DecidableEq, Repr

/-- how a query fails: with an error, or by a panic -/
inductive QueryFailure where
  | archiveDisabled
  | invalidVarType (text : String)
  | panic
deriving DecidableEq, Repr

/-! ## Conversions -/

/-- `as Int` of a 32-bit float -/
def floatToInt (bits : UInt32) : Int32 := (Float32.ofBits bits).toInt32

/-- `Var::to_int`; casts and sums wrap -/
def Var.toInt : Var → Int32
  | .string v => .ofNat v.utf8ByteSize
  | .int v => v
  | .float v => floatToInt v
  | .bool v => if v then 1 else 0
  | .byte v => .ofNat v.toNat
  | .vec2 v₁ v₂ => floatToInt v₁ + floatToInt v₂
  | .vec3 v₁ v₂ v₃ => floatToInt v₁ + floatToInt v₂ + floatToInt v₃
  | .list v => .ofNat v.length
  | .grid v => .ofNat v.length
  | .map v => .ofNat v.length

/-- `Var::to_float` -/
def Var.toFloat : Var → Float32
  | .string v => .ofNat v.utf8ByteSize
  | .int v => .ofInt v.toInt
  | .float v => .ofBits v
  | .bool v => if v then .ofNat 1 else .ofNat 0
  | .byte v => .ofNat v.toNat
  | .vec2 v₁ v₂ => .ofBits v₁ + .ofBits v₂
  | .vec3 v₁ v₂ v₃ => .ofBits v₁ + .ofBits v₂ + .ofBits v₃
  | .list v => .ofNat v.length
  | .grid v => .ofNat v.length
  | .map v => .ofNat v.length

/-- `Var::as_int` -/
def Var.asInt : Var → Except QueryFailure Int32
  | .int v => .ok v
  | v => .error (.invalidVarType ("expected int, got " ++ v.getType.toStr))

/-- `Var::as_float` -/
def Var.asFloat : Var → Except QueryFailure Float32
  | .float v => .ok (.ofBits v)
  | v => .error (.invalidVarType ("expected float, got " ++ v.getType.toStr))

/-! ## Selections -/

/-- the orders in which the entities of a partition are iterated -/
structure Partition.Order (part : Partition) where
  entities : List EntityName
  archive : List EntityName
  complete : (entities : Multiset EntityName) = part.entities.keys.val
  archiveComplete : (archive : Multiset EntityName) = ((part.archive.map Finmap.keys).getD ∅).val

theorem Partition.Order.mem_entities {part : Partition} (order : part.Order) {name : EntityName} :
    name ∈ order.entities ↔ name ∈ part.entities := by
  rw [← Finmap.mem_keys, ← Finset.mem_val, ← order.complete, Multiset.mem_coe]

/-- `selected_entities` and `selected_entities_archived` -/
structure Selection where
  entities : List EntityName
  archived : List EntityName
deriving DecidableEq, Repr

/-- what is selected before the first filter -/
def initialSelection (part : Partition) (order : part.Order) (q : Query) : Except QueryFailure Selection :=
  if q.archive = .include_ then
    match part.archive with
    | some _ => .ok ⟨order.entities, order.archive⟩
    | none => .error .archiveDisabled
  else .ok ⟨order.entities, []⟩

def Entity.hasAll (e : Entity) (comps : List CompName) : Bool := comps.all fun comp => comp ∈ e.components

/-- the entity is in memory and has all of the components -/
def Partition.hasAll (part : Partition) (comps : List CompName) (name : EntityName) : Bool :=
  (part.entities.lookup name).any (·.hasAll comps)

/-- `query.limits.entities` as a length of lists -/
def Query.entityLimit (q : Query) : Option ℕ := q.limits.entities.map UInt32.toNat

section
variable (format : Var → String)

/-- whether a value is strictly between two others, read as the type of the address says; of strings the length
counts -/
def Var.between (var low high : Var) : VarType → Except QueryFailure Bool
  | .string =>
    let len := Int32.ofNat (var.toString format).utf8ByteSize
    .ok (low.toInt < len && len < high.toInt)
  | .int => do
    let int ← var.asInt
    return low.toInt < int && int < high.toInt
  | .float => do
    let float ← var.asFloat
    return low.toFloat < float && float < high.toFloat
  | _ => .error .panic

/-- whether an entity has the variable, and its value is in range -/
def Entity.between (e : Entity) (addr : LocalAddress) (low high : Var) : Except QueryFailure Bool :=
  match e.storage.map.lookup addr.asStorageIndex with
  | some var => var.between format low high addr.varType
  | none => .ok false

/-- the loop of `Filter::VarRange` -/
def retainBetween (part : Partition) (addr : LocalAddress) (low high : Var) :
    List EntityName → Except QueryFailure (List EntityName)
  | [] => .ok []
  | name :: names => do
    let inside ← match part.entities.lookup name with
      | some e => e.between format addr low high
      | none => .ok false
    let rest ← retainBetween part addr low high names
    return if inside then name :: rest else rest

/-- the loop of `Filter::Component`, over all entities, left when the limit is reached -/
def retainComponent (part : Partition) (comp : CompName) (limit : Option ℕ) (kept : List EntityName) :
    List EntityName → List EntityName
  | [] => kept
  | name :: names =>
    if part.hasAll [comp] name then
      if limit.any (· ≤ kept.length + 1) then kept ++ [name]
      else retainComponent part comp limit (kept ++ [name]) names
    else retainComponent part comp limit kept names

/-- one filter, before the limit -/
def Filter.retain (part : Partition) (order : part.Order) (q : Query) (sel : Selection) :
    Filter → Except QueryFailure Selection
  | .name names =>
    .ok ⟨names.filter (· ∈ sel.entities), if q.archive = .ignore then [] else names.filter (· ∈ sel.archived)⟩
  | .allComponents comps => .ok ⟨sel.entities.filter (part.hasAll comps), []⟩
  | .node _ => .ok ⟨sel.entities, []⟩
  | .component comp => .ok ⟨retainComponent part comp q.entityLimit [] order.entities, []⟩
  | .varRange addr low high => do return ⟨← retainBetween format part addr low high sel.entities, []⟩
  | _ => .error .panic

/-- both selections cut at the limit -/
def Selection.truncate (sel : Selection) : Option ℕ → Selection
  | some limit => ⟨sel.entities.take limit, sel.archived.take limit⟩
  | none => sel

/-- one turn of the loop over the filters -/
def applyFilter (part : Partition) (order : part.Order) (q : Query) (sel : Selection) (filter : Filter) :
    Except QueryFailure Selection := do
  let sel ← filter.retain format part order q sel
  return sel.truncate q.entityLimit

def selectEntities (part : Partition) (order : part.Order) (q : Query) : Except QueryFailure Selection := do
  let sel ← initialSelection part order q
  q.filters.foldlM (applyFilter format part order q) sel

end

/-! ## Mapped data -/

abbrev MappedMap := FnvHashMap NativeAddress Var

/-- the key of a variable of an entity -/
def nativeAddress (name : EntityName) (idx : StorageIndex) : NativeAddress := (name, idx.1, idx.2)

theorem nativeAddress_injective (name : EntityName) : Function.Injective (nativeAddress name) := by
  intro i j h
  simp only [nativeAddress, Prod.mk.injEq, true_and] at h
  exact Prod.ext h.1 h.2

/-- the variables of an entity that pass the test go into `mapped_data` -/
def insertVars (test : StorageIndex → Bool) (mapped : MappedMap) (name : EntityName) (e : Entity) : MappedMap :=
  Core.Maps.rekey e.storage.map test (nativeAddress name) (nativeAddress_injective name) ∪ mapped

def Address.storageIndex (a : Address) : StorageIndex := (a.comp, a.varName)

/-- the variable at the address, whatever entity this names -/
def insertAddr (name : EntityName) (e : Entity) (mapped : MappedMap) (addr : Address) : MappedMap :=
  match e.storage.map.lookup addr.storageIndex with
  | some var => mapped.insert (name, addr.comp, addr.varName) var
  | none => mapped

def insertAddrs (addrs : List Address) (mapped : MappedMap) (name : EntityName) (e : Entity) : MappedMap :=
  addrs.foldl (insertAddr name e) mapped

/-- what a mapping takes from an entity in memory; `Map::VarType` is unimplemented -/
def Mapping.visit : Mapping → Option (MappedMap → EntityName → Entity → MappedMap)
  | .all => some (insertVars fun _ => true)
  | .var varName => some (insertVars fun idx => idx.2 = varName)
  | .components names => some (insertVars fun idx => idx.1 ∈ names)
  | .component name => some (insertVars fun idx => idx.1 = name)
  | .selectAddrs addrs => some (insertAddrs addrs)
  | .varType _ => none

/-- the loop of a mapping over the selected entities in memory; each that is there is accessed -/
def mapEntities (now : UInt32) (visit : MappedMap → EntityName → Entity → MappedMap) :
    List EntityName → Partition × MappedMap → Partition × MappedMap
  | [], s => s
  | name :: names, (part, mapped) =>
    match part.getEntity now name with
    | (part, .ok e) => mapEntities now visit names (part, visit mapped name e)
    | (part, .error _) => mapEntities now visit names (part, mapped)

/-- the loop of `Map::All` over the selected entities in the archive -/
def mapArchived (part : Partition) (names : List EntityName) (mapped : MappedMap) : MappedMap :=
  names.foldl (fun mapped name =>
    match part.archived name with
    | some e => insertVars (fun _ => true) mapped name e
    | none => mapped) mapped

/-- the loop over the mappings, left at `Map::All` -/
def applyMappings (archive : Archive) (now : UInt32) (sel : Selection) :
    List Mapping → Partition × MappedMap → Partition × Except QueryFailure MappedMap
  | [], (part, mapped) => (part, .ok mapped)
  | .all :: _, (part, mapped) =>
    let mapped := if archive = .ignore then mapped else mapArchived part sel.archived mapped
    let s := mapEntities now (insertVars fun _ => true) sel.entities (part, mapped)
    (s.1, .ok s.2)
  | mapping :: mappings, s =>
    match mapping.visit with
    | some visit => applyMappings archive now sel mappings (mapEntities now visit sel.entities s)
    | none => (s.1, .error .panic)

/-! ## The query -/

/-- the order in which mapped data are iterated -/
structure MappedOrder where
  entries : MappedMap → AList fun _ : NativeAddress => Var
  complete : ∀ map, (entries map).toFinmap = map

def MappedOrder.data (it : MappedOrder) (mapped : MappedMap) : MappedData :=
  (it.entries mapped).entries.map fun e => (e.1, e.2)

section
variable (format : Var → String) (now : UInt32)

/-- filters and mappings -/
def mapQuery (part : Partition) (order : part.Order) (q : Query) : Partition × Except QueryFailure MappedMap :=
  match selectEntities format part order q with
  | .ok sel => applyMappings q.archive now sel q.mappings (part, ∅)
  | .error e => (part, .error e)

/-- the product in the shape that the query asks for -/
def Query.product (q : Query) (it : MappedOrder) (mapped : MappedMap) : Except QueryFailure QueryProduct :=
  match productOf format q.description q.layout (it.data mapped) with
  | some product => .ok product
  | none => .error .panic

def processQuery (it : MappedOrder) (part : Partition) (order : part.Order) (q : Query) :
    Partition × Except QueryFailure QueryProduct :=
  match mapQuery format now part order q with
  | (part, .ok mapped) => (part, q.product format it mapped)
  | (part, .error e) => (part, .error e)

end

/-! ## What the loops collect -/

/-- the variable of a mapping's own choice, of whatever entity -/
def Mapping.takes (idx : StorageIndex) : Mapping → Bool
  | .all => true
  | .var varName => idx.2 = varName
  | .components names => idx.1 ∈ names
  | .component name => idx.1 = name
  | .selectAddrs addrs => addrs.any fun addr => addr.storageIndex = idx
  | .varType _ => false

/-- the value of a variable of an entity that is stored -/
def valueOf (store : FnvHashMap EntityName Entity) (k : NativeAddress) : Option Var :=
  (store.lookup k.1).bind fun e => e.storage.map.lookup k.2

section
variable {mapped : MappedMap} {name : EntityName} {e : Entity} {k : NativeAddress}

theorem lookup_insertVars (test : StorageIndex → Bool) :
    (insertVars test mapped name e).lookup k =
      if k.1 = name ∧ test k.2 = true then e.storage.map.lookup k.2 <|> mapped.lookup k else mapped.lookup k := by
  have hinj := nativeAddress_injective name
  by_cases hin : k ∈ Core.Maps.rekey e.storage.map test (nativeAddress name) hinj
  · obtain ⟨v, hv⟩ := Finmap.mem_iff.mp hin
    rw [insertVars, Finmap.lookup_union_left hin, hv]
    obtain ⟨idx, rfl, htest, hlookup⟩ := Core.Maps.lookup_rekey.mp hv
    simp [nativeAddress, htest, hlookup]
  · rw [insertVars, Finmap.lookup_union_right hin]
    split_ifs with hk
    · obtain ⟨rfl, htest⟩ := hk
      have hnone : e.storage.map.lookup k.2 = none := by
        by_contra hsome
        obtain ⟨v, hv⟩ := Option.ne_none_iff_exists'.mp hsome
        exact hin (Finmap.mem_of_lookup_eq_some (Core.Maps.lookup_rekey.mpr ⟨k.2, rfl, htest, hv⟩))
      rw [hnone]
      rfl
    · rfl

theorem lookup_insertAddr (addr : Address) :
    (insertAddr name e mapped addr).lookup k =
      if k.1 = name ∧ addr.storageIndex = k.2 then e.storage.map.lookup k.2 <|> mapped.lookup k
      else mapped.lookup k := by
  unfold insertAddr
  cases hv : e.storage.map.lookup addr.storageIndex with
  | none =>
    split_ifs with hk
    · rw [← hk.2, hv]
      rfl
    · rfl
  | some var =>
    dsimp only
    split_ifs with hk
    · obtain ⟨hname, hidx⟩ := hk
      have hkey : k = (name, addr.comp, addr.varName) := Prod.ext hname hidx.symm
      rw [← hidx, hv, hkey, Finmap.lookup_insert]
      rfl
    · refine Finmap.lookup_insert_of_ne _ fun hkey => hk ?_
      rw [hkey]
      exact ⟨rfl, rfl⟩

theorem lookup_insertAddrs (addrs : List Address) :
    (insertAddrs addrs mapped name e).lookup k =
      if k.1 = name ∧ (addrs.any fun addr => addr.storageIndex = k.2) = true then
        e.storage.map.lookup k.2 <|> mapped.lookup k
      else mapped.lookup k := by
  induction addrs generalizing mapped with
  | nil => simp [insertAddrs]
  | cons addr addrs ih =>
    have hrest := @ih (insertAddr name e mapped addr)
    rw [insertAddrs, List.foldl_cons]
    rw [insertAddrs] at hrest
    rw [hrest, lookup_insertAddr]
    by_cases hname : k.1 = name
    · by_cases hidx : addr.storageIndex = k.2
      · simp only [hname, hidx, List.any_cons, decide_true, Bool.true_or, true_and, and_self, if_true]
        split_ifs <;> cases e.storage.map.lookup k.2 <;> rfl
      · simp [hname, hidx]
    · simp [hname]

/-- **What a mapping takes from an entity.** -/
theorem lookup_visit {mapping : Mapping} {visit : MappedMap → EntityName → Entity → MappedMap}
    (h : mapping.visit = some visit) :
    (visit mapped name e).lookup k =
      if k.1 = name ∧ mapping.takes k.2 = true then e.storage.map.lookup k.2 <|> mapped.lookup k
      else mapped.lookup k := by
  cases mapping with
  | selectAddrs addrs =>
    obtain rfl := Option.some.inj h
    exact lookup_insertAddrs addrs
  | varType t => cases h
  | _ =>
    obtain rfl := Option.some.inj h
    exact lookup_insertVars _

end

/-! ## What a query leaves alone -/

/-- the same entities with the same data, in the same places: accesses are stamped, and no more -/
structure Partition.SameHoldings (part part' : Partition) : Prop where
  entities : ∀ name, (part'.entities.lookup name).map Entity.data = (part.entities.lookup name).map Entity.data
  archive : part'.archive = part.archive

theorem Partition.SameHoldings.refl (part : Partition) : part.SameHoldings part := ⟨fun _ => rfl, rfl⟩

theorem Partition.SameHoldings.trans {p q r : Partition} (h : p.SameHoldings q) (h' : q.SameHoldings r) :
    p.SameHoldings r :=
  ⟨fun name => (h'.entities name).trans (h.entities name), h'.archive.trans h.archive⟩

theorem valueOf_eq (store : FnvHashMap EntityName Entity) (k : NativeAddress) :
    valueOf store k = ((store.lookup k.1).map Entity.data).bind fun data => data.1.map.lookup k.2 := by
  unfold valueOf
  cases store.lookup k.1 <;> rfl

theorem Partition.SameHoldings.valueOf {part part' : Partition} (h : part.SameHoldings part') (k : NativeAddress) :
    BigWorlds.valueOf part'.entities k = BigWorlds.valueOf part.entities k := by
  rw [valueOf_eq, valueOf_eq, h.entities]

theorem Partition.getEntity_same (part : Partition) (now : UInt32) (name : EntityName) :
    part.SameHoldings (part.getEntity now name).1 := by
  rcases part.getEntity_cases now name with ⟨-, h⟩ | ⟨e, he, h⟩
  · rw [h]
    exact SameHoldings.refl part
  · rw [h]
    refine ⟨fun other => ?_, rfl⟩
    by_cases hother : other = name
    · subst hother
      rw [Finmap.lookup_insert, he]
      rfl
    · rw [Finmap.lookup_insert_of_ne _ hother]

/-- **The loop of a mapping.** It takes its variables of the entities that are there. -/
theorem mapEntities_spec {mapping : Mapping} {visit : MappedMap → EntityName → Entity → MappedMap}
    (h : mapping.visit = some visit) (now : UInt32) (names : List EntityName) (part : Partition) (mapped : MappedMap) :
    part.SameHoldings (mapEntities now visit names (part, mapped)).1 ∧
      ∀ k, (mapEntities now visit names (part, mapped)).2.lookup k =
        if k.1 ∈ names ∧ mapping.takes k.2 = true then valueOf part.entities k <|> mapped.lookup k
        else mapped.lookup k := by
  induction names generalizing part mapped with
  | nil => exact ⟨Partition.SameHoldings.refl part, fun k => by simp [mapEntities]⟩
  | cons name names ih =>
    have hsame := part.getEntity_same now name
    unfold mapEntities
    rcases part.getEntity_cases now name with ⟨hnone, hget⟩ | ⟨e, he, hget⟩
    · rw [hget]
      obtain ⟨hrest, hlookup⟩ := ih part mapped
      refine ⟨hrest, fun k => (hlookup k).trans ?_⟩
      by_cases hk : k.1 = name
      · have hvalue : valueOf part.entities k = none := by rw [valueOf, hk, hnone, Option.bind_none]
        simp [hk, hvalue]
      · simp [hk]
    · rw [hget] at hsame ⊢
      dsimp only at hsame ⊢
      obtain ⟨hrest, hlookup⟩ := ih _ (visit mapped name _)
      refine ⟨hsame.trans hrest, fun k => (hlookup k).trans ?_⟩
      rw [hsame.valueOf, lookup_visit h]
      by_cases hk : k.1 = name
      · have hvalue : valueOf part.entities k = e.storage.map.lookup k.2 := by rw [valueOf, hk, he, Option.bind_some]
        by_cases htakes : mapping.takes k.2 = true
        · simp only [hk, htakes, and_self, and_true, if_true, List.mem_cons, true_or, hvalue]
          split_ifs <;> cases e.storage.map.lookup k.2 <;> rfl
        · simp [htakes]
      · simp [hk]

/-- the entities in the archive -/
def Partition.inArchive (part : Partition) : FnvHashMap EntityName Entity := part.archive.getD ∅

theorem Partition.archived_eq (part : Partition) (name : EntityName) :
    part.archived name = part.inArchive.lookup name := by
  unfold Partition.archived Partition.inArchive
  cases part.archive <;> rfl

theorem lookup_mapArchived (part : Partition) (names : List EntityName) (mapped : MappedMap) (k : NativeAddress) :
    (mapArchived part names mapped).lookup k =
      if k.1 ∈ names then valueOf part.inArchive k <|> mapped.lookup k else mapped.lookup k := by
  unfold mapArchived
  induction names generalizing mapped with
  | nil => simp
  | cons name names ih =>
    rw [List.foldl_cons, ih]
    by_cases hk : k.1 = name
    · subst hk
      rw [part.archived_eq]
      cases he : part.inArchive.lookup k.1 with
      | none => simp [valueOf, he]
      | some e =>
        have hvalue : valueOf part.inArchive k = e.storage.map.lookup k.2 := by rw [valueOf, he, Option.bind_some]
        simp only [lookup_insertVars, hvalue, and_self, if_true, List.mem_cons, true_or]
        split_ifs <;> cases e.storage.map.lookup k.2 <;> rfl
    · have hsame : ∀ mapped' : MappedMap, mapped'.lookup k = mapped.lookup k →
          (if k.1 ∈ names then valueOf part.inArchive k <|> mapped'.lookup k else mapped'.lookup k) =
            if k.1 ∈ name :: names then valueOf part.inArchive k <|> mapped.lookup k else mapped.lookup k := by
        intro mapped' h
        simp [h, hk]
      cases part.archived name with
      | none => exact hsame _ rfl
      | some e => exact hsame _ ((lookup_insertVars _).trans (if_neg fun h => hk h.1))

/-- what a list of mappings takes of one entity -/
def takesAny (mappings : List Mapping) (idx : StorageIndex) : Bool := mappings.any (Mapping.takes idx)

/-- what the mappings take of the selected entities, in memory and in the archive -/
def mappedValue (part : Partition) (archive : Archive) (sel : Selection) (mappings : List Mapping)
    (k : NativeAddress) : Option Var :=
  (if k.1 ∈ sel.entities ∧ takesAny mappings k.2 = true then valueOf part.entities k else none) <|>
    if k.1 ∈ sel.archived ∧ .all ∈ mappings ∧ archive ≠ .ignore then valueOf part.inArchive k else none

theorem mappedValue_eq_some {part : Partition} {archive : Archive} {sel : Selection} {mappings : List Mapping}
    {k : NativeAddress} {v : Var} :
    mappedValue part archive sel mappings k = some v ↔
      (k.1 ∈ sel.entities ∧ takesAny mappings k.2 = true ∧ valueOf part.entities k = some v) ∨
        ((k.1 ∈ sel.entities → takesAny mappings k.2 = true → valueOf part.entities k = none) ∧
          k.1 ∈ sel.archived ∧ .all ∈ mappings ∧ archive ≠ .ignore ∧ valueOf part.inArchive k = some v) := by
  unfold mappedValue
  by_cases hsel : k.1 ∈ sel.entities ∧ takesAny mappings k.2 = true
  · obtain ⟨hin, htakes⟩ := hsel
    cases valueOf part.entities k with
    | some u => simp [hin, htakes]
    | none => simp [hin, htakes, and_assoc]
  · rw [if_neg hsel]
    have hnot : ¬ (k.1 ∈ sel.entities ∧ takesAny mappings k.2 = true ∧ valueOf part.entities k = some v) :=
      fun h => hsel ⟨h.1, h.2.1⟩
    have hall : k.1 ∈ sel.entities → takesAny mappings k.2 = true → valueOf part.entities k = none :=
      fun hin htakes => absurd ⟨hin, htakes⟩ hsel
    simpa [hnot, and_assoc] using fun _ _ _ _ => hall

/-- **The loop over the mappings.** Where all of them are implemented it collects what they take; of entities in the
archive that is what `Map::All` takes. -/
theorem applyMappings_spec {mappings : List Mapping} (h : ∀ mapping ∈ mappings, mapping.visit.isSome = true)
    (archive : Archive) (now : UInt32) (sel : Selection) (part : Partition) (mapped : MappedMap) :
    ∃ part' mapped', applyMappings archive now sel mappings (part, mapped) = (part', .ok mapped') ∧
      part.SameHoldings part' ∧
      ∀ k, mapped'.lookup k = (mappedValue part archive sel mappings k <|> mapped.lookup k) := by
  induction mappings generalizing part mapped with
  | nil => exact ⟨part, mapped, rfl, Partition.SameHoldings.refl part, fun k => by simp [mappedValue, takesAny]⟩
  | cons mapping mappings ih =>
    obtain ⟨visit, hvisit⟩ := Option.isSome_iff_exists.mp (h mapping List.mem_cons_self)
    by_cases hall : mapping = .all
    · subst hall
      obtain rfl := Option.some.inj hvisit
      obtain ⟨hsame, hlookup⟩ := mapEntities_spec (show Mapping.all.visit = some _ from rfl) now sel.entities part
        (if archive = .ignore then mapped else mapArchived part sel.archived mapped)
      refine ⟨_, _, rfl, hsame, fun k => (hlookup k).trans ?_⟩
      have hmapped : (if archive = .ignore then mapped else mapArchived part sel.archived mapped).lookup k =
          ((if k.1 ∈ sel.archived ∧ archive ≠ .ignore then valueOf part.inArchive k else none) <|>
            mapped.lookup k) := by
        by_cases hignore : archive = .ignore
        · simp [hignore]
        · rw [if_neg hignore, lookup_mapArchived]
          by_cases hin : k.1 ∈ sel.archived <;> simp [hin, hignore]
      rw [hmapped]
      by_cases hin : k.1 ∈ sel.entities
      · simp only [hin, Mapping.takes, and_self, if_true, mappedValue, takesAny, List.any_cons, Bool.true_or,
          List.mem_cons, true_or, true_and]
        cases valueOf part.entities k <;> rfl
      · simp [hin, mappedValue]
    · have hunfold : applyMappings archive now sel (mapping :: mappings) (part, mapped) =
          applyMappings archive now sel mappings (mapEntities now visit sel.entities (part, mapped)) := by
        cases mapping <;> first
          | exact absurd rfl hall
          | simp only [applyMappings, hvisit]
      obtain ⟨hsame, hlookup⟩ := mapEntities_spec hvisit now sel.entities part mapped
      obtain ⟨part', mapped', hrun, hsame', hlookup'⟩ :=
        ih (fun m hm => h m (List.mem_cons_of_mem _ hm)) (mapEntities now visit sel.entities (part, mapped)).1
          (mapEntities now visit sel.entities (part, mapped)).2
      refine ⟨part', mapped', hunfold.trans hrun, hsame.trans hsame', fun k => ?_⟩
      have harchive : valueOf (mapEntities now visit sel.entities (part, mapped)).1.inArchive k =
          valueOf part.inArchive k := by
        rw [Partition.inArchive, hsame.archive]
        rfl
      have hmem : Mapping.all ∈ mapping :: mappings ↔ Mapping.all ∈ mappings := by
        simp [Ne.symm hall]
      rw [hlookup' k, hlookup k]
      simp only [mappedValue, hsame.valueOf, harchive, hmem, takesAny, List.any_cons, Bool.or_eq_true]
      by_cases hin : k.1 ∈ sel.entities
      · by_cases htakes : mapping.takes k.2 = true
        · simp only [hin, htakes, true_and, true_or, if_true]
          by_cases hrest : mappings.any (Mapping.takes k.2) = true
          · simp only [hrest, if_true]
            cases valueOf part.entities k <;> rfl
          · -- without an earlier choice there is no `Map::All` after this mapping
            have hno : Mapping.all ∉ mappings := fun hmem => hrest (List.any_eq_true.mpr ⟨.all, hmem, rfl⟩)
            simp only [hrest, hno, false_and, and_false, if_false, Bool.false_eq_true]
            cases valueOf part.entities k <;> rfl
        · simp [hin, htakes]
      · simp [hin]

end BigWorlds
