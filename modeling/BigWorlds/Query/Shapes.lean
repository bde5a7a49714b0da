/-
The shapes of one query's product beside each other (`query/process.rs`, from the mapped data on).

The plain addressed product has all the mapped values, the native one has them under their keys, and the product of
many values groups them by entity. The typed addressed product has a map for strings, and no branch that fills it.

- `shapes_agree_iff`: the shapes carry the same data exactly if the query maps no string;
- `typed_drops_strings`: an entity with a name for a variable.
-/
import BigWorlds.Query.Filtering

namespace BigWorlds

/-! ## Mapped data as a list -/

theorem MappedOrder.mem_data (it : MappedOrder) {mapped : MappedMap} {e : NativeAddress × Var} :
    e ∈ it.data mapped ↔ mapped.lookup e.1 = some e.2 := by
  have hlookup : mapped.lookup e.1 = (it.entries mapped).lookup e.1 := by
    rw [← Finmap.lookup_toFinmap, it.complete]
  rw [hlookup, MappedOrder.data, List.mem_map]
  constructor
  · rintro ⟨x, hx, heq⟩
    subst heq
    exact (List.mem_dlookup_iff (it.entries mapped).nodupKeys).mpr hx
  · intro h
    exact ⟨⟨e.1, e.2⟩, (List.mem_dlookup_iff (it.entries mapped).nodupKeys).mp h, rfl⟩

theorem MappedOrder.nodup_keys (it : MappedOrder) (mapped : MappedMap) : ((it.data mapped).map Prod.fst).Nodup := by
  rw [MappedOrder.data, List.map_map]
  exact (it.entries mapped).nodupKeys

/-- the native key that an address stands for -/
def Address.native (a : Address) : NativeAddress := (a.entity, a.comp, a.varName)

theorem native_entryAddress (e : NativeAddress × Var) : (entryAddress e).native = e.1 := rfl

/-- entries of different keys have different addresses -/
theorem MappedOrder.nodup_addresses (it : MappedOrder) (mapped : MappedMap) :
    ((it.data mapped).map entryAddress).Nodup := by
  refine List.Nodup.of_map Address.native ?_
  rw [List.map_map]
  exact it.nodup_keys mapped

/-! ## The products -/

variable {it : MappedOrder} {mapped : MappedMap}

def addressedOf (data : MappedData) : FnvHashMap Address Var :=
  data.foldl (fun map e => map.insert (entryAddress e) e.2) ∅

def typedOf (data : MappedData) : AddressedTypedMap :=
  data.foldl (fun map e => map.insert (entryAddress e) e.2) AddressedTypedMap.default

def nativeOf (data : MappedData) : FnvHashMap NativeAddress Var := data.foldl (fun map e => map.insert e.1 e.2) ∅

def groupedOf (data : MappedData) : FnvHashMap EntityName (List Var) := data.foldl pushVar ∅

theorem lookup_addressedOf {a : Address} {v : Var} :
    (addressedOf (it.data mapped)).lookup a = some v ↔ mapped.lookup a.native = some v ∧ a.varType = v.getType := by
  refine (Core.Maps.lookup_foldl_insert (fun e => some e.2) (it.nodup_addresses mapped) ∅).trans ?_
  constructor
  · intro h
    rcases h with ⟨e, he, hkey, hval⟩ | ⟨_, hnone⟩
    · obtain rfl := Option.some.inj hval
      subst hkey
      exact ⟨it.mem_data.mp he, rfl⟩
    · cases hnone
  · rintro ⟨hv, htype⟩
    refine Or.inl ⟨(a.native, v), it.mem_data.mpr hv, ?_, rfl⟩
    cases a
    simp_all [entryAddress, Address.native]

theorem lookup_nativeOf {k : NativeAddress} {v : Var} :
    (nativeOf (it.data mapped)).lookup k = some v ↔ mapped.lookup k = some v := by
  refine (Core.Maps.lookup_foldl_insert (fun e => some e.2) (it.nodup_keys mapped) ∅).trans ?_
  constructor
  · intro h
    rcases h with ⟨e, he, hkey, hval⟩ | ⟨_, hnone⟩
    · obtain rfl := Option.some.inj hval
      subst hkey
      exact it.mem_data.mp he
    · cases hnone
  · intro hv
    exact Or.inl ⟨(k, v), it.mem_data.mpr hv, rfl, rfl⟩

/-! ## The typed product -/

/-- a field of the typed product, and the values that go there -/
structure TypedField (τ : Type) where
  field : AddressedTypedMap → FnvHashMap Address τ
  value : Var → Option τ
  default_ : field AddressedTypedMap.default = ∅
  insert_ : ∀ map addr v, field (map.insert addr v) = (value v).elim (field map) ((field map).insert addr)

theorem TypedField.lookup_typedOf {τ : Type} (F : TypedField τ) {a : Address} {x : τ} :
    (F.field (typedOf (it.data mapped))).lookup a = some x ↔
      ∃ v, F.value v = some x ∧ (addressedOf (it.data mapped)).lookup a = some v := by
  have hfold : ∀ (data : MappedData) (map : AddressedTypedMap),
      F.field (data.foldl (fun map e => map.insert (entryAddress e) e.2) map) =
        data.foldl (fun map e => (F.value e.2).elim map (map.insert (entryAddress e))) (F.field map) := by
    intro data
    induction data with
    | nil => exact fun map => rfl
    | cons e data ih =>
      intro map
      rw [List.foldl_cons, ih, F.insert_, List.foldl_cons]
  rw [typedOf, hfold, F.default_]
  refine (Core.Maps.lookup_foldl_insert (fun e => F.value e.2) (it.nodup_addresses mapped) ∅).trans ?_
  constructor
  · intro h
    rcases h with ⟨e, he, hkey, hval⟩ | ⟨_, hnone⟩
    · subst hkey
      exact ⟨e.2, hval, lookup_addressedOf.2 ⟨it.mem_data.mp he, rfl⟩⟩
    · cases hnone
  · rintro ⟨v, hval, hv⟩
    obtain ⟨hmapped, htype⟩ := lookup_addressedOf.1 hv
    refine Or.inl ⟨(a.native, v), it.mem_data.mpr hmapped, ?_, hval⟩
    cases a
    simp_all [entryAddress, Address.native]

def stringField : TypedField String where
  field := AddressedTypedMap.strings
  value := fun _ => none
  default_ := rfl
  insert_ := fun map addr v => by cases v <;> rfl

def intField : TypedField Int32 where
  field := AddressedTypedMap.ints
  value := fun v => match v with | .int x => some x | _ => none
  default_ := rfl
  insert_ := fun map addr v => by cases v <;> rfl

def floatField : TypedField UInt32 where
  field := AddressedTypedMap.floats
  value := fun v => match v with | .float x => some x | _ => none
  default_ := rfl
  insert_ := fun map addr v => by cases v <;> rfl

def boolField : TypedField Bool where
  field := AddressedTypedMap.bools
  value := fun v => match v with | .bool x => some x | _ => none
  default_ := rfl
  insert_ := fun map addr v => by cases v <;> rfl

/-! ## The grouped product -/

theorem lookup_groupedOf (data : MappedData) (map : FnvHashMap EntityName (List Var)) (name : EntityName) :
    ((data.foldl pushVar map).lookup name).getD [] =
      (map.lookup name).getD [] ++ (data.filter fun e => e.1.1 = name).map Prod.snd := by
  induction data generalizing map with
  | nil => simp
  | cons e data ih =>
    have hpush : ((pushVar map e).lookup name).getD [] =
        (map.lookup name).getD [] ++ if e.1.1 = name then [e.2] else [] := by
      unfold pushVar
      by_cases hname : e.1.1 = name
      · subst hname
        cases map.lookup e.1.1 <;> simp
      · cases map.lookup e.1.1 <;> simp [hname, Finmap.lookup_insert_of_ne _ (Ne.symm hname)]
    rw [List.foldl_cons, ih, hpush, List.filter_cons, List.append_assoc]
    by_cases hname : e.1.1 = name <;> simp [hname]

/-- the values of an entity in an addressed product -/
def valuesOf (addressed : FnvHashMap Address Var) (name : EntityName) : Multiset Var :=
  (addressed.entries.filter fun e => e.1.entity = name).map Sigma.snd

theorem groupedOf_eq_valuesOf (name : EntityName) :
    (((groupedOf (it.data mapped)).lookup name).getD [] : Multiset Var) =
      valuesOf (addressedOf (it.data mapped)) name := by
  rw [groupedOf, lookup_groupedOf, valuesOf, addressedOf,
    Core.Maps.entries_foldl_insert Prod.snd (it.nodup_addresses mapped), Multiset.filter_coe, Multiset.map_coe,
    List.filter_map, List.map_map, Finmap.lookup_empty, Option.getD_none, List.nil_append]
  rfl

/-! ## The shapes of one query -/

section
variable (format : Var → String) (now : UInt32) (part : Partition) (order : part.Order) (q : Query)

/-- the same query, for another shape -/
def Query.shape (q : Query) (description : Description) (layout : Layout) : Query := { q with description, layout }

/-- the answers to one query in four shapes carry the same data; each may iterate the mapped data in another order -/
def ShapesAgree (it : Description → Layout → MappedOrder) : Prop :=
  ∃ addressed typed native grouped,
    (processQuery format now (it .addressed .var) part order (q.shape .addressed .var)).2 =
        .ok (.addressedVar addressed) ∧
      (processQuery format now (it .addressed .typed) part order (q.shape .addressed .typed)).2 =
        .ok (.addressedTyped typed) ∧
      (processQuery format now (it .nativeDescribed .var) part order (q.shape .nativeDescribed .var)).2 =
        .ok (.nativeAddressedVar native) ∧
      (processQuery format now (it .entityMany .var) part order (q.shape .entityMany .var)).2 =
        .ok (.nameAddressedVars grouped) ∧
      ((∀ a s, typed.strings.lookup a = some s ↔ addressed.lookup a = some (.string s)) ∧
        (∀ a i, typed.ints.lookup a = some i ↔ addressed.lookup a = some (.int i)) ∧
        (∀ a f, typed.floats.lookup a = some f ↔ addressed.lookup a = some (.float f)) ∧
        ∀ a b, typed.bools.lookup a = some b ↔ addressed.lookup a = some (.bool b)) ∧
      (∀ k v, native.lookup k = some v ↔ addressed.lookup ⟨k.1, k.2.1, v.getType, k.2.2⟩ = some v) ∧
      ∀ name, ((grouped.lookup name).getD [] : Multiset Var) = valuesOf addressed name

variable {format now part order q}

/-- the shape is made of the same mapped data -/
theorem processQuery_shape (h : (mapQuery format now part order q).2 = .ok mapped) (it : MappedOrder)
    (description : Description) (layout : Layout) {product : QueryProduct}
    (hproduct : productOf format description layout (it.data mapped) = some product) :
    (processQuery format now it part order (q.shape description layout)).2 = .ok product := by
  have hmap : mapQuery format now part order (q.shape description layout) =
      ((mapQuery format now part order q).1, .ok mapped) := Prod.ext rfl h
  unfold processQuery
  rw [hmap]
  unfold Query.product
  dsimp only [Query.shape]
  rw [hproduct]

theorem addressedOf_eq (it it' : MappedOrder) : addressedOf (it.data mapped) = addressedOf (it'.data mapped) := by
  apply Finmap.ext_lookup
  intro a
  apply Option.ext
  intro v
  exact lookup_addressedOf.trans lookup_addressedOf.symm

/-- a field of the typed product holds the addressed values of one kind -/
theorem TypedField.lookup_iff {τ : Type} (F : TypedField τ) {mk : τ → Var}
    (hvalue : ∀ v x, F.value v = some x ↔ v = mk x) (it' : MappedOrder) (a : Address) (x : τ) :
    (F.field (typedOf (it.data mapped))).lookup a = some x ↔
      (addressedOf (it'.data mapped)).lookup a = some (mk x) := by
  rw [F.lookup_typedOf, addressedOf_eq it it']
  constructor
  · rintro ⟨v, hv, hlookup⟩
    rwa [(hvalue v x).mp hv] at hlookup
  · intro hlookup
    exact ⟨mk x, (hvalue _ x).mpr rfl, hlookup⟩

variable (format now part order q)

/-- **The same data in every shape.** Where the filters and mappings of a query go through, the addressed product in
typed layout, the native product and the product of many values carry the data of the plain addressed product, if and
only if none of the variables that the query maps holds a string. -/
theorem shapes_agree_iff (it : Description → Layout → MappedOrder) {mapped : MappedMap}
    (h : (mapQuery format now part order q).2 = .ok mapped) :
    ShapesAgree format now part order q it ↔ ∀ k s, mapped.lookup k ≠ some (.string s) := by
  have hstrings : ∀ a s, (typedOf ((it .addressed .typed).data mapped)).strings.lookup a ≠ some s := by
    intro a s hs
    obtain ⟨v, hv, -⟩ := (stringField.lookup_typedOf).mp hs
    cases hv
  constructor
  · rintro ⟨addressed, typed, native, grouped, haddressed, htyped, _, _, ⟨hagree, _⟩, _⟩ k s hk
    have haddressed' := processQuery_shape h (it .addressed .var) .addressed .var rfl
    have htyped' := processQuery_shape h (it .addressed .typed) .addressed .typed rfl
    obtain rfl := QueryProduct.addressedVar.inj (Except.ok.inj (haddressed'.symm.trans haddressed))
    obtain rfl := QueryProduct.addressedTyped.inj (Except.ok.inj (htyped'.symm.trans htyped))
    have hplain : (addressedOf ((it .addressed .var).data mapped)).lookup ⟨k.1, k.2.1, .string, k.2.2⟩ =
        some (.string s) := lookup_addressedOf.2 ⟨hk, rfl⟩
    exact hstrings _ s ((hagree _ s).mpr hplain)
  · intro hno
    refine ⟨addressedOf ((it .addressed .var).data mapped), typedOf ((it .addressed .typed).data mapped),
      nativeOf ((it .nativeDescribed .var).data mapped), groupedOf ((it .entityMany .var).data mapped),
      processQuery_shape h _ _ _ rfl, processQuery_shape h _ _ _ rfl, processQuery_shape h _ _ _ rfl,
      processQuery_shape h _ _ _ rfl,
      ⟨?_, intField.lookup_iff ?_ _, floatField.lookup_iff ?_ _, boolField.lookup_iff ?_ _⟩, ?_, ?_⟩
    · intro a s
      constructor
      · intro hs
        exact absurd hs (hstrings a s)
      · intro hs
        exact absurd (lookup_addressedOf.1 hs).1 (hno a.native s)
    · intro v x
      cases v <;> simp [intField]
    · intro v x
      cases v <;> simp [floatField]
    · intro v x
      cases v <;> simp [boolField]
    · intro k v
      rw [lookup_nativeOf, lookup_addressedOf]
      constructor
      · intro hk
        exact ⟨hk, rfl⟩
      · intro hk
        exact hk.1
    · intro name
      rw [groupedOf_eq_valuesOf, addressedOf_eq (it .entityMany .var) (it .addressed .var)]

end

/-! ## A name -/

noncomputable def anyOrder : MappedOrder where
  entries map := ⟨map.entries.toList, by
    rw [← Multiset.coe_nodupKeys, Multiset.coe_toList]
    exact map.nodupKeys⟩
  complete map := Finmap.ext (Multiset.coe_toList map.entries)

/-- a person with a name -/
def person : Partition := .holding [("p", .made ["identity"] [(("identity", "name"), .string "Ada")])] none

def personOrder : person.Order := ⟨["p"], [], by decide, by decide⟩

theorem mapQuery_person :
    ∃ mapped, (mapQuery (fun _ => "") 0 person personOrder (queryFor [])).2 = .ok mapped ∧
      mapped.lookup ("p", "identity", "name") = some (.string "Ada") := by
  obtain ⟨part', mapped, hrun, -, hlookup⟩ :=
    @applyMappings_spec [.all] (by decide) .ignore 0 ⟨["p"], []⟩ person ∅
  refine ⟨mapped, ?_, (hlookup _).trans rfl⟩
  have hmap : mapQuery (fun _ => "") 0 person personOrder (queryFor []) =
      applyMappings .ignore 0 ⟨["p"], []⟩ [.all] (person, ∅) := rfl
  rw [hmap, hrun]

theorem typed_drops_strings : ¬ ∀ (format : Var → String) (now : UInt32) (part : Partition) (order : part.Order)
    (q : Query) (it : Description → Layout → MappedOrder) (mapped : MappedMap),
    (mapQuery format now part order q).2 = .ok mapped → ShapesAgree format now part order q it := by
  intro h
  obtain ⟨mapped, hmapped, hname⟩ := mapQuery_person
  obtain ⟨addressed, typed, native, grouped, haddressed, htyped, _, _, ⟨hagree, _⟩, _⟩ :=
    h (fun _ => "") 0 person personOrder (queryFor []) (fun _ _ => anyOrder) mapped hmapped
  have haddressed' := processQuery_shape hmapped anyOrder .addressed .var rfl
  have htyped' := processQuery_shape hmapped anyOrder .addressed .typed rfl
  obtain rfl := QueryProduct.addressedVar.inj (Except.ok.inj (haddressed'.symm.trans haddressed))
  obtain rfl := QueryProduct.addressedTyped.inj (Except.ok.inj (htyped'.symm.trans htyped))
  have hplain : (addressedOf (anyOrder.data mapped)).lookup ⟨"p", "identity", .string, "name"⟩ =
      some (.string "Ada") := lookup_addressedOf.2 ⟨hname, rfl⟩
  obtain ⟨v, hv, -⟩ := stringField.lookup_typedOf.mp ((hagree _ "Ada").mpr hplain)
  cases hv

theorem shapes_agree_iff_person :
    ∃ mapped, (mapQuery (fun _ => "") 0 person personOrder (queryFor [])).2 = .ok mapped ∧
      (ShapesAgree (fun _ => "") 0 person personOrder (queryFor []) (fun _ _ => anyOrder) ↔
        ∀ k s, mapped.lookup k ≠ some (.string s)) := by
  obtain ⟨mapped, hmapped, -⟩ := mapQuery_person
  exact ⟨mapped, hmapped,
    shapes_agree_iff (fun _ => "") 0 person personOrder (queryFor []) (fun _ _ => anyOrder) hmapped⟩

end BigWorlds
