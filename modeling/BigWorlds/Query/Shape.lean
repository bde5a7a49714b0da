/-
The product of one worker (`query/process.rs`, from the mapped data on): the shape that a description and a layout ask
for. The mapped data are the entries of a hash map in the order in which it is iterated.

- `productOf_shaped`: what is returned has the shape asked for;
- `entity_of_productOf`: entries of a shape that can be joined are about the entities that were mapped.
-/
import BigWorlds.Core.Maps
import BigWorlds.Query.Product
import BigWorlds.Text.Value

namespace BigWorlds

/-- `query::Description` -/
inductive Description where
  | nativeDescribed
  | addressed
  | entity
  | entityMany
  | component
  | var
  | componentVar
  | ordered
  | none
deriving DecidableEq, Repr

abbrev NativeAddress := EntityName × CompName × VarName

abbrev MappedData := List (NativeAddress × Var)

namespace AddressedTypedMap

def default : AddressedTypedMap := ⟨∅, ∅, ∅, ∅⟩

/-- floats, booleans and integers; other values are left out -/
def insert (data : AddressedTypedMap) (addr : Address) : Var → AddressedTypedMap
  | .float v => { data with floats := data.floats.insert addr v }
  | .bool v => { data with bools := data.bools.insert addr v }
  | .int v => { data with ints := data.ints.insert addr v }
  | _ => data

end AddressedTypedMap

/-- the address of an entry of the mapped data -/
def entryAddress (e : NativeAddress × Var) : Address := ⟨e.1.1, e.1.2.1, e.2.getType, e.1.2.2⟩

/-- one more value of an entity -/
def pushVar (data : FnvHashMap EntityName (List Var)) (e : NativeAddress × Var) : FnvHashMap EntityName (List Var) :=
  match data.lookup e.1.1 with
  | some vars => data.insert e.1.1 (vars ++ [e.2])
  | none => data.insert e.1.1 [e.2]

/-- the product of the mapped data; none panics -/
def productOf (format : Var → String) (description : Description) (layout : Layout) (data : MappedData) :
    Option QueryProduct :=
  match description, layout with
  | .none, .var => some (.var (data.map Prod.snd))
  | .none, .string => some (.string (data.map fun e => e.2.toString format))
  | .nativeDescribed, .var => some (.nativeAddressedVar (data.foldl (fun map e => map.insert e.1 e.2) ∅))
  | .entity, .var => some (.nameAddressedVar (data.foldl (fun map e => map.insert e.1.1 e.2) ∅))
  | .entityMany, .var => some (.nameAddressedVars (data.foldl pushVar ∅))
  | .addressed, .var => some (.addressedVar (data.foldl (fun map e => map.insert (entryAddress e) e.2) ∅))
  | .addressed, .typed =>
    some (.addressedTyped (data.foldl (fun map e => map.insert (entryAddress e) e.2) AddressedTypedMap.default))
  | _, _ => none

/-- the shape that is asked for -/
def Shaped (description : Description) (layout : Layout) (p : QueryProduct) : Prop :=
  match description, layout with
  | .none, .var => ∃ vec, p = .var vec
  | .none, .string => ∃ vec, p = .string vec
  | .nativeDescribed, .var => ∃ map, p = .nativeAddressedVar map
  | .entity, .var => ∃ map, p = .nameAddressedVar map
  | .entityMany, .var => ∃ map, p = .nameAddressedVars map
  | .addressed, .var => ∃ map, p = .addressedVar map
  | .addressed, .typed => ∃ map, p = .addressedTyped map
  | _, _ => False

/-- products of the shape are joined by `merge` -/
def Extends : Description → Layout → Bool
  | .none, .var | .none, .string | .entity, .var | .entityMany, .var | .addressed, .var => true
  | _, _ => false

variable {format : Var → String} {description : Description} {layout : Layout} {data : MappedData} {p : QueryProduct}

theorem productOf_shaped (h : productOf format description layout data = some p) : Shaped description layout p := by
  cases description <;> cases layout <;> first
    | exact ⟨_, (Option.some.inj h).symm⟩
    | cases h

theorem Shaped.ne_empty (h : Shaped description layout p) : p ≠ .empty := by
  rintro rfl
  cases description <;> cases layout <;> first
    | exact h
    | (obtain ⟨_, h⟩ := h; cases h)

/-! ## Entries -/

/-- one entry of a product, with the shape it belongs to -/
inductive Entry where
  | native (addr : NativeAddress) (v : Var)
  | addressed (addr : Address) (v : Var)
  | named (name : EntityName) (v : Var)
  | namedMany (name : EntityName) (vars : List Var)
  | typedString (addr : Address) (v : String)
  | typedInt (addr : Address) (v : Int32)
  | typedFloat (addr : Address) (bits : UInt32)
  | typedBool (addr : Address) (v : Bool)
  | ordered (table : UInt32) (v : Var)
  | value (v : Var)
  | text (s : String)

/-- the entries of a map -/
def mapEntries {κ ν : Type} (entry : κ → ν → Entry) (map : FnvHashMap κ ν) : Multiset Entry :=
  map.entries.map fun e => entry e.1 e.2

/-- the entries of a product, each as often as it is there -/
def QueryProduct.entries : QueryProduct → Multiset Entry
  | .nativeAddressedVar map => mapEntries Entry.native map
  | .addressedVar map => mapEntries Entry.addressed map
  | .nameAddressedVar map => mapEntries Entry.named map
  | .nameAddressedVars map => mapEntries Entry.namedMany map
  | .addressedTyped map =>
    mapEntries Entry.typedString map.strings + mapEntries Entry.typedInt map.ints +
      mapEntries Entry.typedFloat map.floats + mapEntries Entry.typedBool map.bools
  | .orderedVar table vec => vec.map (Entry.ordered table)
  | .var vec => vec.map Entry.value
  | .string vec => vec.map Entry.text
  | .empty => 0

/-- the entity that an entry of a joined shape is kept under, if it has one -/
def Entry.entity : Entry → Option EntityName
  | .addressed addr _ => some addr.entity
  | .named name _ | .namedMany name _ => some name
  | _ => none

def entitiesOf (data : MappedData) : List EntityName := data.map fun e => e.1.1

theorem mem_pushVar {map : FnvHashMap EntityName (List Var)} {e : NativeAddress × Var} {k : EntityName}
    (h : k ∈ pushVar map e) : k ∈ map ∨ k = e.1.1 := by
  unfold pushVar at h
  split at h
  · exact (Finmap.mem_insert.mp h).symm
  · exact (Finmap.mem_insert.mp h).symm

/-- the keys of a map that is built from the mapped data are keys of its entries -/
theorem mem_of_mem_mapEntries {κ ν : Type} [DecidableEq κ] {entry : κ → ν → Entry}
    {step : FnvHashMap κ ν → NativeAddress × Var → FnvHashMap κ ν} (key : NativeAddress × Var → κ)
    (hstep : ∀ map e k, k ∈ step map e → k ∈ map ∨ k = key e) {e : Entry}
    (h : e ∈ mapEntries entry (data.foldl step ∅)) : ∃ e' ∈ data, ∃ v, e = entry (key e') v := by
  obtain ⟨⟨k, v⟩, hkv, rfl⟩ := Multiset.mem_map.mp h
  have hk : k ∈ data.foldl step ∅ := Finmap.mem_of_lookup_eq_some (Core.Maps.mem_entries_iff.mp hkv)
  rcases Core.Maps.mem_foldl hstep hk with hk | ⟨e', he', rfl⟩
  · exact absurd hk Finmap.notMem_empty
  · exact ⟨e', he', v, rfl⟩

theorem entity_of_productOf (hext : Extends description layout = true)
    (h : productOf format description layout data = some p) {e : Entry} (he : e ∈ p.entries) {n : EntityName}
    (hn : e.entity = some n) : n ∈ entitiesOf data := by
  have hinsert {κ ν : Type} [DecidableEq κ] (key : NativeAddress × Var → κ) (val : NativeAddress × Var → ν)
      (map : FnvHashMap κ ν) (e : NativeAddress × Var) (k : κ) (hk : k ∈ map.insert (key e) (val e)) :
      k ∈ map ∨ k = key e := (Finmap.mem_insert.mp hk).symm
  cases description <;> cases layout <;> first
    | exact absurd hext (by decide)
    | obtain rfl := Option.some.inj h
  case addressed.var =>
    obtain ⟨e', he', v, rfl⟩ := mem_of_mem_mapEntries entryAddress (hinsert entryAddress Prod.snd) he
    obtain rfl := Option.some.inj hn
    exact List.mem_map.mpr ⟨e', he', rfl⟩
  case entity.var =>
    obtain ⟨e', he', v, rfl⟩ := mem_of_mem_mapEntries (fun e => e.1.1) (hinsert (fun e => e.1.1) Prod.snd) he
    obtain rfl := Option.some.inj hn
    exact List.mem_map.mpr ⟨e', he', rfl⟩
  case entityMany.var =>
    obtain ⟨e', he', v, rfl⟩ := mem_of_mem_mapEntries (fun e => e.1.1) (fun _ _ _ hk => mem_pushVar hk) he
    obtain rfl := Option.some.inj hn
    exact List.mem_map.mpr ⟨e', he', rfl⟩
  case none.var =>
    obtain ⟨v, _, rfl⟩ := List.mem_map.mp (Multiset.mem_coe.mp he)
    exact absurd hn (by rintro ⟨⟩)
  case none.string =>
    obtain ⟨v, _, rfl⟩ := List.mem_map.mp (Multiset.mem_coe.mp he)
    exact absurd hn (by rintro ⟨⟩)

end BigWorlds
