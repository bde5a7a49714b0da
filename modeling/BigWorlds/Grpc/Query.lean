/-
Filters and mappings of a query in gRPC messages (`server/grpc/conversions.rs`, messages of `bigworlds.proto`).

Encoding flattens: addresses and ids become texts, the two values of a range become texts without their type, no node is
the number zero, distances are widened to 64 bits. Decoding makes a string of the text of a value, no node of the number
zero, and falls back where a text is not an address; it panics where an address has a type that is not read.

- `query_round_trip_iff`: a filter, and a mapping, comes back from its message exactly if it is `Kept`;
- `query_round_trip_lost`: ranges of numbers, node zero, typed lists and addresses of lists do not come back.
-/
import BigWorlds.Query.Language
import BigWorlds.Text.Value
import BigWorlds.Text.Address

namespace BigWorlds.Grpc

/-! ## Messages -/

namespace Wire

/-- message `DistanceFilter` -/
structure DistanceFilter where
  addressX : String
  addressY : String
  addressZ : String
  maxX : UInt64
  maxY : UInt64
  maxZ : UInt64
deriving DecidableEq, Repr

/-- the `oneof kind` of message `Filter` -/
inductive FilterKind where
  | allComponents (componentNames : List String)
  | someComponents (componentNames : List String)
  | component (componentName : String)
  | name (entityNames : List String)
  | id (entityIds : List String)
  | varRange (localAddress varStart varEnd : String)
  | attrRange (attrId varStart varEnd : String)
  | distance (d : DistanceFilter)
  | distanceMultiPoint (points : List DistanceFilter)
  | node (type value : Int32)
deriving DecidableEq, Repr

abbrev Filter := Option FilterKind

/-- the `oneof kind` of message `Map` -/
inductive MapKind where
  | all
  | selectAddrs (addresses : List String)
  | components (componentNames : List String)
  | component (componentName : String)
  | var (varType varName : String)
  | varName (varName : String)
  | varType (varType : String)
deriving DecidableEq, Repr

abbrev Map := Option MapKind

end Wire

/-- the casts between floats of 32 and 64 bits, `f32 as f64` and `f64 as f32`. Of a number both together give back the
number; of a NaN the payload is not specified. -/
structure FloatCasts where
  widen : UInt32 → UInt64
  narrow : UInt64 → UInt32
  exact : ∀ x, x &&& 0x7FFFFFFF ≤ 0x7F800000 → narrow (widen x) = x

/-- how floats and nested values are formatted, and the casts -/
structure Formats where
  format : Var → String
  casts : FloatCasts

variable (F : Formats)

/-! ## Encoding -/

def fromDistance (d : Distance) : Wire.DistanceFilter where
  addressX := d.addressX.toString
  addressY := d.addressY.toString
  addressZ := d.addressZ.toString
  maxX := F.casts.widen d.maxX
  maxY := F.casts.widen d.maxY
  maxZ := F.casts.widen d.maxZ

def fromNode : NodeFilter → Wire.FilterKind
  | .local_ (some val) => .node 0 val.toInt32
  | .local_ none => .node 0 0
  | .remote (some val) => .node 1 val.toInt32
  | .remote none => .node 1 0

/-- `From<Filter> for bigworlds::Filter` -/
def fromFilter : Filter → Wire.Filter
  | .allComponents names => some (.allComponents names)
  | .someComponents names => some (.someComponents names)
  | .component name => some (.component name)
  | .name names => some (.name names)
  | .id ids => some (.id (ids.map fun id => Nat.repr id.toNat))
  | .varRange addr start end_ =>
    some (.varRange addr.toString (start.toString F.format) (end_.toString F.format))
  | .attrRange attr start end_ => some (.attrRange attr (start.toString F.format) (end_.toString F.format))
  | .distance d => some (.distance (fromDistance F d))
  | .distanceMultiPoint points => some (.distanceMultiPoint (points.map (fromDistance F)))
  | .node node => some (fromNode node)

/-- the name of a variable type in a mapping -/
def fromVarType : VarType → String
  | .string => "string"
  | .int => "int"
  | .float => "float"
  | .bool => "bool"
  | .byte => "byte"
  | .vec2 => "vec2"
  | .vec3 => "vec3"
  | .list => "list"
  | .grid => "grid"
  | .map => "map"
  | _ => "string"

/-- `From<Map> for bigworlds::Map` -/
def fromMap : Mapping → Wire.Map
  | .all => some .all
  | .selectAddrs addresses => some (.selectAddrs (addresses.map Address.toString))
  | .components names => some (.components names)
  | .component name => some (.component name)
  | .var name => some (.var "" name)
  | .varType t => some (.varType (fromVarType t))

/-! ## Decoding -/

/-- an address, or one made up around the text; none panics -/
def readAddress (text : String) : Option Address :=
  match Address.fromStr text with
  | .ok a => some a
  | .error .panic => none
  | .error _ => some ⟨"default", "default", .string, text⟩

def readLocalAddress (text : String) : Option LocalAddress :=
  match LocalAddress.fromStr text with
  | .ok a => some a
  | .error .panic => none
  | .error _ => some ⟨"default", .string, text⟩

def toDistance (d : Wire.DistanceFilter) : Option Distance := do
  let addressX ← readAddress d.addressX
  let addressY ← readAddress d.addressY
  let addressZ ← readAddress d.addressZ
  return ⟨addressX, addressY, addressZ, F.casts.narrow d.maxX, F.casts.narrow d.maxY, F.casts.narrow d.maxZ⟩

/-- the points of a filter, from the first on -/
def toDistances : List Wire.DistanceFilter → Option (List Distance)
  | [] => some []
  | d :: ds => do
    let d ← toDistance F d
    let ds ← toDistances ds
    return d :: ds

def toNode (type value : Int32) : NodeFilter :=
  if type = 0 then .local_ (if value = 0 then none else some value.toUInt32)
  else if type = 1 then .remote (if value = 0 then none else some value.toUInt32)
  else .local_ none

/-- `From<bigworlds::Filter> for Filter`; none panics -/
def toFilter : Wire.Filter → Option Filter
  | none => some (.component "default")
  | some (.allComponents names) => some (.allComponents names)
  | some (.someComponents names) => some (.someComponents names)
  | some (.component name) => some (.component name)
  | some (.name names) => some (.name names)
  | some (.id ids) => some (.id (ids.filterMap parseU32))
  | some (.varRange localAddress varStart varEnd) => do
    let addr ← readLocalAddress localAddress
    return .varRange addr (.string varStart) (.string varEnd)
  | some (.attrRange attrId varStart varEnd) => some (.attrRange attrId (.string varStart) (.string varEnd))
  | some (.distance d) => do return .distance (← toDistance F d)
  | some (.distanceMultiPoint points) => do return .distanceMultiPoint (← toDistances F points)
  | some (.node type value) => some (.node (toNode type value))

/-- the addresses that are read, the others left out; none panics -/
def readAddresses : List String → Option (List Address)
  | [] => some []
  | text :: texts =>
    match Address.fromStr text with
    | .ok a => (readAddresses texts).map (a :: ·)
    | .error .panic => none
    | .error _ => readAddresses texts

def toVarType : String → VarType
  | "string" => .string
  | "int" => .int
  | "float" => .float
  | "bool" => .bool
  | "byte" => .byte
  | "vec2" => .vec2
  | "vec3" => .vec3
  | "list" => .list
  | "grid" => .grid
  | "map" => .map
  | _ => .string

/-- `From<bigworlds::Map> for Map`; none panics -/
def toMap : Wire.Map → Option Mapping
  | none => some .all
  | some .all => some .all
  | some (.selectAddrs addresses) => (readAddresses addresses).map .selectAddrs
  | some (.components names) => some (.components names)
  | some (.component name) => some (.component name)
  | some (.var _ name) => some (.var name)
  | some (.varName name) => some (.var name)
  | some (.varType t) => some (.varType (toVarType t))

/-! ## What comes back -/

/-- the two casts give the float back -/
def Survives (x : UInt32) : Prop := F.casts.narrow (F.casts.widen x) = x

theorem survives_of_number {x : UInt32} (h : x &&& 0x7FFFFFFF ≤ 0x7F800000) : Survives F x := F.casts.exact x h

/-- the types of the addresses are read, and the distances survive the casts -/
structure Distance.Kept (d : Distance) : Prop where
  addressX : d.addressX.varType.readable = true
  addressY : d.addressY.varType.readable = true
  addressZ : d.addressZ.varType.readable = true
  maxX : Survives F d.maxX
  maxY : Survives F d.maxY
  maxZ : Survives F d.maxZ

/-- the names in the addresses are free of the separator -/
def Distance.Named (d : Distance) : Prop := d.addressX.Named ∧ d.addressY.Named ∧ d.addressZ.Named

def Filter.Named : Filter → Prop
  | .varRange addr _ _ => addr.Named
  | .distance d => Distance.Named d
  | .distanceMultiPoint points => ∀ d ∈ points, Distance.Named d
  | _ => True

/-- a range is one of strings, addresses have types that are read, distances survive, and a node is not number zero -/
def Filter.Kept : Filter → Prop
  | .varRange addr start end_ => addr.varType.readable = true ∧ start.isString = true ∧ end_.isString = true
  | .attrRange _ start end_ => start.isString = true ∧ end_.isString = true
  | .distance d => Distance.Kept F d
  | .distanceMultiPoint points => ∀ d ∈ points, Distance.Kept F d
  | .node (.local_ node) | .node (.remote node) => node ≠ some 0
  | _ => True

/-- the types that have a name in a mapping -/
def VarType.plain : VarType → Bool
  | .string | .int | .float | .bool | .byte | .vec2 | .vec3 | .list | .grid | .map => true
  | _ => false

def Mapping.Named : Mapping → Prop
  | .selectAddrs addresses => ∀ a ∈ addresses, a.Named
  | _ => True

/-- selected addresses have types that are read, and a type is not one of lists or grids of one type -/
def Mapping.Kept : Mapping → Prop
  | .selectAddrs addresses => ∀ a ∈ addresses, a.varType.readable = true
  | .varType t => VarType.plain t = true
  | _ => True

/-! ## Parts of a filter -/

theorem readAddress_toString {a : Address} (h : a.Named) :
    readAddress a.toString = if a.varType.readable then some a else none := by
  unfold readAddress
  cases hr : a.varType.readable with
  | true => rw [(Address.fromStr_toString_iff h).mpr hr, if_pos rfl]
  | false => rw [Address.fromStr_toString_panic h hr, if_neg (by simp)]

theorem readLocalAddress_toString {a : LocalAddress} (h : a.Named) :
    readLocalAddress a.toString = if a.varType.readable then some a else none := by
  unfold readLocalAddress
  cases hr : a.varType.readable with
  | true => rw [(LocalAddress.fromStr_toString_iff h).mpr hr, if_pos rfl]
  | false => rw [LocalAddress.fromStr_toString_panic h hr, if_neg (by simp)]

theorem toDistance_fromDistance_iff {d : Distance} (h : Distance.Named d) (d' : Distance) :
    toDistance F (fromDistance F d) = some d' ↔
      (d.addressX.varType.readable = true ∧ d.addressY.varType.readable = true ∧ d.addressZ.varType.readable = true) ∧
        d' = { d with
          maxX := F.casts.narrow (F.casts.widen d.maxX)
          maxY := F.casts.narrow (F.casts.widen d.maxY)
          maxZ := F.casts.narrow (F.casts.widen d.maxZ) } := by
  simp only [toDistance, fromDistance, readAddress_toString h.1, readAddress_toString h.2.1,
    readAddress_toString h.2.2]
  cases d.addressX.varType.readable <;> cases d.addressY.varType.readable <;>
    cases d.addressZ.varType.readable <;> simp [eq_comm]

theorem Distance.kept_iff {d : Distance} (h : Distance.Named d) :
    toDistance F (fromDistance F d) = some d ↔ Distance.Kept F d := by
  rw [toDistance_fromDistance_iff F h]
  constructor
  · rintro ⟨⟨hx, hy, hz⟩, hd⟩
    obtain ⟨addressX, addressY, addressZ, maxX, maxY, maxZ⟩ := d
    simp only [Distance.mk.injEq, true_and] at hd
    exact ⟨hx, hy, hz, hd.1.symm, hd.2.1.symm, hd.2.2.symm⟩
  · intro hk
    refine ⟨⟨hk.addressX, hk.addressY, hk.addressZ⟩, ?_⟩
    rw [hk.maxX, hk.maxY, hk.maxZ]

theorem toDistances_map_iff {points : List Distance} (h : ∀ d ∈ points, Distance.Named d) :
    toDistances F (points.map (fromDistance F)) = some points ↔ ∀ d ∈ points, Distance.Kept F d := by
  induction points with
  | nil => exact ⟨fun _ d hd => absurd hd List.not_mem_nil, fun _ => rfl⟩
  | cons d ds ih =>
    have hd := Distance.kept_iff F (h d List.mem_cons_self)
    have hds := ih fun d hd => h d (List.mem_cons_of_mem _ hd)
    rw [List.forall_mem_cons, ← hd, ← hds, List.map_cons, toDistances]
    cases toDistance F (fromDistance F d) with
    | none => exact ⟨fun h => absurd h (by rintro ⟨⟩), fun h => absurd h.1 (by rintro ⟨⟩)⟩
    | some d' =>
      cases toDistances F (ds.map (fromDistance F)) with
      | none => exact ⟨fun h => absurd h (by rintro ⟨⟩), fun h => absurd h.2 (by rintro ⟨⟩)⟩
      | some ds' =>
        show some (d' :: ds') = some (d :: ds) ↔ some d' = some d ∧ some ds' = some ds
        simp only [Option.some.injEq, List.cons.injEq]

theorem ids_round_trip (ids : List EntityId) :
    (ids.map fun id => Nat.repr id.toNat).filterMap parseU32 = ids := by
  induction ids with
  | nil => rfl
  | cons id ids ih => rw [List.map_cons, List.filterMap_cons, parseU32_repr, ih]

theorem toInt32_eq_zero_iff {x : UInt32} : x.toInt32 = 0 ↔ x = 0 := by
  constructor
  · intro h
    rw [← UInt32.toUInt32_toInt32 x, h]
    rfl
  · rintro rfl
    rfl

/-- the number of a node, kept unless it is zero -/
theorem node_number_iff (x : UInt32) :
    (if x.toInt32 = 0 then none else some x.toInt32.toUInt32) = some x ↔ x ≠ 0 := by
  by_cases hx : x = 0
  · rw [if_pos (toInt32_eq_zero_iff.2 hx)]
    exact ⟨fun h => absurd h (by rintro ⟨⟩), fun h => absurd hx h⟩
  · rw [if_neg fun h => hx (toInt32_eq_zero_iff.1 h), UInt32.toUInt32_toInt32]
    exact ⟨fun _ => hx, fun _ => rfl⟩

theorem string_toString_iff (format : Var → String) (v : Var) :
    Var.string (v.toString format) = v ↔ v.isString = true := by
  cases v with
  | string s => exact ⟨fun _ => rfl, fun _ => rfl⟩
  | _ => exact ⟨fun h => absurd h (by rintro ⟨⟩), fun h => absurd h (by rintro ⟨⟩)⟩

theorem readAddresses_map_iff {addresses : List Address} (h : ∀ a ∈ addresses, a.Named) :
    readAddresses (addresses.map Address.toString) = some addresses ↔
      ∀ a ∈ addresses, a.varType.readable = true := by
  induction addresses with
  | nil => exact ⟨fun _ a ha => absurd ha List.not_mem_nil, fun _ => rfl⟩
  | cons a as ih =>
    have ha : a.Named := h a List.mem_cons_self
    rw [List.forall_mem_cons, ← ih fun a ha => h a (List.mem_cons_of_mem _ ha), List.map_cons, readAddresses]
    cases hr : a.varType.readable with
    | true =>
      rw [(Address.fromStr_toString_iff ha).mpr hr]
      cases readAddresses (as.map Address.toString) with
      | none => exact ⟨fun h => absurd h (by rintro ⟨⟩), fun h => absurd h.2 (by rintro ⟨⟩)⟩
      | some as' =>
        show some (a :: as') = some (a :: as) ↔ true = true ∧ some as' = some as
        simp only [Option.some.injEq, List.cons.injEq, true_and]
    | false =>
      rw [Address.fromStr_toString_panic ha hr]
      exact ⟨fun h => absurd h (by rintro ⟨⟩), fun h => absurd h.1 (by simp)⟩

theorem toVarType_fromVarType_iff (t : VarType) : toVarType (fromVarType t) = t ↔ VarType.plain t = true := by
  cases t <;> decide

/-! ## Filters and mappings -/

/-- a filter comes back from its message exactly if it is kept -/
theorem filter_round_trip_iff {f : Filter} (h : Filter.Named f) :
    toFilter F (fromFilter F f) = some f ↔ Filter.Kept F f := by
  cases f with
  | allComponents names | someComponents names | component name | name names => exact ⟨fun _ => trivial, fun _ => rfl⟩
  | id ids =>
    refine ⟨fun _ => trivial, fun _ => ?_⟩
    rw [fromFilter, toFilter, ids_round_trip]
  | varRange addr start end_ =>
    simp only [fromFilter, toFilter, readLocalAddress_toString h, Filter.Kept]
    rw [← string_toString_iff F.format start, ← string_toString_iff F.format end_]
    cases addr.varType.readable with
    | true => simp
    | false => simp
  | attrRange attr start end_ =>
    simp only [fromFilter, toFilter, Filter.Kept]
    rw [← string_toString_iff F.format start, ← string_toString_iff F.format end_]
    simp
  | distance d =>
    simp only [fromFilter, toFilter, Filter.Kept]
    rw [← Distance.kept_iff F h]
    cases toDistance F (fromDistance F d) <;> simp
  | distanceMultiPoint points =>
    simp only [fromFilter, toFilter, Filter.Kept]
    rw [← toDistances_map_iff F h]
    cases toDistances F (points.map (fromDistance F)) <;> simp
  | node node =>
    cases node with
    | local_ node =>
      cases node with
      | none => exact ⟨fun _ => by simp [Filter.Kept], fun _ => rfl⟩
      | some x =>
        simp only [fromFilter, fromNode, toFilter, toNode, Filter.Kept, if_true, Option.some.injEq, Filter.node.injEq,
          NodeFilter.local_.injEq, ne_eq]
        exact node_number_iff x
    | remote node =>
      cases node with
      | none => exact ⟨fun _ => by simp [Filter.Kept], fun _ => rfl⟩
      | some x =>
        have hone : (1 : Int32) ≠ 0 := by decide
        simp only [fromFilter, fromNode, toFilter, toNode, Filter.Kept, if_neg hone, if_true, Option.some.injEq,
          Filter.node.injEq, NodeFilter.remote.injEq, ne_eq]
        exact node_number_iff x

/-- a mapping comes back from its message exactly if it is kept -/
theorem map_round_trip_iff {m : Mapping} (h : Mapping.Named m) : toMap (fromMap m) = some m ↔ Mapping.Kept m := by
  cases m with
  | all | components names | component name | var name => exact ⟨fun _ => trivial, fun _ => rfl⟩
  | selectAddrs addresses =>
    simp only [fromMap, toMap, Mapping.Kept]
    rw [← readAddresses_map_iff h]
    cases readAddresses (addresses.map Address.toString) <;> simp
  | varType t =>
    simp only [fromMap, toMap, Mapping.Kept, Option.some.injEq, Mapping.varType.injEq]
    exact toVarType_fromVarType_iff t

/-- the filters and mappings that come back from their messages -/
structure RoundTrip (filter : Filter → Prop) (mapping : Mapping → Prop) : Prop where
  filter : ∀ f, Filter.Named f → (toFilter F (fromFilter F f) = some f ↔ filter f)
  mapping : ∀ m, Mapping.Named m → (toMap (fromMap m) = some m ↔ mapping m)

/-- **Query round trip.** With names free of the separator, a filter and a mapping come back exactly if they are kept. -/
theorem query_round_trip_iff : RoundTrip F (Filter.Kept F) Mapping.Kept where
  filter _ h := filter_round_trip_iff F h
  mapping _ h := map_round_trip_iff h

/-- no format for floats and nested values, and casts that agree with those of floats on zero -/
def zeroFormats : Formats where
  format _ := ""
  casts := ⟨UInt32.toUInt64, UInt64.toUInt32, fun x _ => UInt32.toUInt32_toUInt64 x⟩

/-- node zero becomes no node, a range of numbers one of texts, a typed list a string; the address of a list panics -/
theorem query_round_trip_lost :
    toFilter zeroFormats (fromFilter zeroFormats (.node (.local_ (some 0)))) = some (.node (.local_ none)) ∧
      toFilter zeroFormats (fromFilter zeroFormats (.attrRange "age" (.int 1) (.int 9))) =
        some (.attrRange "age" (.string "1") (.string "9")) ∧
      toMap (fromMap (.varType .intList)) = some (.varType .string) ∧
      toMap (fromMap (.selectAddrs [⟨"e", "c", .list, "x"⟩])) = none := by
  refine ⟨by decide, rfl, by decide, by decide⟩

end BigWorlds.Grpc
