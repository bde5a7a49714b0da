/-
Values in gRPC messages (`server/grpc/query_conversions.rs`, messages of `bigworlds.proto`).

A message is the record of its fields; a field that is itself a message can be absent. Messages with one repeated field
(`VarList`, `VarGrid`, `VarRow`, `VarValueMap`) are that list. Floats are their bits.

- `var_round_trip`: a value, with its maps in key order at every level, comes back from its message, and a message that
  is accepted, with its map entries in key order at every level, is that of the value it stands for;
- `tryFromVar_ordered`: what is accepted has its maps in key order.
-/
import BigWorlds.Core.SortedMap
import BigWorlds.Text.Address
import Mathlib.Data.String.Basic

namespace BigWorlds.Grpc

open BigWorlds.Core.SortedMap (Sorted collect collect_sorted collect_eq_self)

/-! ## Messages -/

namespace Wire

mutual

/-- message `Var` -/
inductive Var where
  | mk (value : Option Value)
deriving Repr

/-- its `oneof value` -/
inductive Value where
  | stringValue (s : String)
  | intValue (i : Int32)
  | floatValue (bits : UInt32)
  | boolValue (b : Bool)
  | byteValue (bytes : List UInt8)
  | vec2Value (x y : UInt32)
  | vec3Value (x y z : UInt32)
  | listValue (vars : List Var)
  | gridValue (rows : List (List Var))
  | mapValue (entries : List (String × Option Var))
deriving Repr

end

end Wire

/-- how a conversion fails -/
inductive ConversionFailure where
  | failedConversion (text : String)
  | address (e : AddressFailure)
deriving DecidableEq, Repr

/-! ## Conversions -/

mutual

/-- `From<Var> for bigworlds::Var` -/
def fromVar : Var → Wire.Var
  | .string s => ⟨some (.stringValue s)⟩
  | .int i => ⟨some (.intValue i)⟩
  | .float f => ⟨some (.floatValue f)⟩
  | .bool b => ⟨some (.boolValue b)⟩
  | .byte b => ⟨some (.byteValue [b])⟩
  | .vec2 x y => ⟨some (.vec2Value x y)⟩
  | .vec3 x y z => ⟨some (.vec3Value x y z)⟩
  | .list l => ⟨some (.listValue (fromVars l))⟩
  | .grid g => ⟨some (.gridValue (fromRows g))⟩
  | .map m => ⟨some (.mapValue (fromEntries m))⟩

def fromVars : List Var → List Wire.Var
  | [] => []
  | v :: vs => fromVar v :: fromVars vs

def fromRows : List (List Var) → List (List Wire.Var)
  | [] => []
  | row :: rows => fromVars row :: fromRows rows

def fromEntries : List (String × Var) → List (String × Option Wire.Var)
  | [] => []
  | (k, v) :: entries => (k, some (fromVar v)) :: fromEntries entries

end

mutual

/-- `TryFrom<bigworlds::Var> for Var` -/
def tryFromVar : Wire.Var → Except ConversionFailure Var
  | ⟨none⟩ => .error (.failedConversion "Var has no value variant")
  | ⟨some value⟩ => tryFromValue value

def tryFromValue : Wire.Value → Except ConversionFailure Var
  | .stringValue s => .ok (.string s)
  | .intValue i => .ok (.int i)
  | .floatValue f => .ok (.float f)
  | .boolValue b => .ok (.bool b)
  | .byteValue [b] => .ok (.byte b)
  | .byteValue _ => .error (.failedConversion "Byte value must have exactly one byte")
  | .vec2Value x y => .ok (.vec2 x y)
  | .vec3Value x y z => .ok (.vec3 x y z)
  | .listValue vars => do return .list (← tryFromVars vars)
  | .gridValue rows => do return .grid (← tryFromRows rows)
  | .mapValue entries => do return .map (collect (← tryFromEntries entries))

def tryFromVars : List Wire.Var → Except ConversionFailure (List Var)
  | [] => .ok []
  | v :: vs => do
    let v ← tryFromVar v
    let vs ← tryFromVars vs
    return v :: vs

def tryFromRows : List (List Wire.Var) → Except ConversionFailure (List (List Var))
  | [] => .ok []
  | row :: rows => do
    let row ← tryFromVars row
    let rows ← tryFromRows rows
    return row :: rows

def tryFromEntries : List (String × Option Wire.Var) → Except ConversionFailure (List (String × Var))
  | [] => .ok []
  | (_, none) :: _ => .error (.failedConversion "Missing value in VarValueMapEntry")
  | (k, some v) :: entries => do
    let v ← tryFromVar v
    let entries ← tryFromEntries entries
    return (k, v) :: entries

end

/-! ## Key order -/

mutual

/-- the maps in a value are in key order, as a `BTreeMap` is -/
def Ordered : Var → Prop
  | .list l => OrderedAll l
  | .grid g => OrderedRows g
  | .map m => Sorted m ∧ OrderedEntries m
  | _ => True

def OrderedAll : List Var → Prop
  | [] => True
  | v :: vs => Ordered v ∧ OrderedAll vs

def OrderedRows : List (List Var) → Prop
  | [] => True
  | row :: rows => OrderedAll row ∧ OrderedRows rows

def OrderedEntries : List (String × Var) → Prop
  | [] => True
  | (_, v) :: entries => Ordered v ∧ OrderedEntries entries

end

mutual

/-- the map entries in a message are in the order of their keys, which are distinct -/
def WireOrdered : Wire.Var → Prop
  | ⟨none⟩ => True
  | ⟨some value⟩ => WireOrderedValue value

def WireOrderedValue : Wire.Value → Prop
  | .listValue vars => WireOrderedAll vars
  | .gridValue rows => WireOrderedRows rows
  | .mapValue entries => Sorted entries ∧ WireOrderedEntries entries
  | _ => True

def WireOrderedAll : List Wire.Var → Prop
  | [] => True
  | v :: vs => WireOrdered v ∧ WireOrderedAll vs

def WireOrderedRows : List (List Wire.Var) → Prop
  | [] => True
  | row :: rows => WireOrderedAll row ∧ WireOrderedRows rows

def WireOrderedEntries : List (String × Option Wire.Var) → Prop
  | [] => True
  | (_, none) :: entries => WireOrderedEntries entries
  | (_, some v) :: entries => WireOrdered v ∧ WireOrderedEntries entries

end

/-! ## Round trips -/

theorem bind_ok {α β : Type} {x : Except ConversionFailure α} {f : α → Except ConversionFailure β} {b : β} :
    (x >>= f) = .ok b ↔ ∃ a, x = .ok a ∧ f a = .ok b := by
  cases x with
  | error e => exact ⟨fun h => absurd h (by rintro ⟨⟩), fun ⟨_, h, _⟩ => absurd h (by rintro ⟨⟩)⟩
  | ok a => exact ⟨fun h => ⟨a, rfl, h⟩, fun ⟨_, h, h'⟩ => by cases h; exact h'⟩

mutual

theorem tryFrom_from : (v : Var) → Ordered v → tryFromVar (fromVar v) = .ok v
  | .string _, _ | .int _, _ | .float _, _ | .bool _, _ | .byte _, _ | .vec2 _ _, _ | .vec3 _ _ _, _ => rfl
  | .list l, h => by
    rw [fromVar, tryFromVar, tryFromValue, tryFroms_froms l h]
    rfl
  | .grid g, h => by
    rw [fromVar, tryFromVar, tryFromValue, tryFromRows_from g h]
    rfl
  | .map m, h => by
    have hcollect : collect m = m := collect_eq_self h.1
    rw [fromVar, tryFromVar, tryFromValue, tryFromEntries_from m h.2]
    exact congrArg (Except.ok ∘ Var.map) hcollect

theorem tryFroms_froms : (vs : List Var) → OrderedAll vs → tryFromVars (fromVars vs) = .ok vs
  | [], _ => rfl
  | v :: vs, h => by
    rw [fromVars, tryFromVars, tryFrom_from v h.1, tryFroms_froms vs h.2]
    rfl

theorem tryFromRows_from : (rows : List (List Var)) → OrderedRows rows → tryFromRows (fromRows rows) = .ok rows
  | [], _ => rfl
  | row :: rows, h => by
    rw [fromRows, tryFromRows, tryFroms_froms row h.1, tryFromRows_from rows h.2]
    rfl

theorem tryFromEntries_from : (m : List (String × Var)) → OrderedEntries m → tryFromEntries (fromEntries m) = .ok m
  | [], _ => rfl
  | (k, v) :: m, h => by
    rw [fromEntries, tryFromEntries, tryFrom_from v h.1, tryFromEntries_from m h.2]
    rfl

end

/-- entries that are accepted keep their keys -/
theorem keys_of_tryFromEntries {entries : List (String × Option Wire.Var)} {m : List (String × Var)}
    (h : tryFromEntries entries = .ok m) : m.map Prod.fst = entries.map Prod.fst := by
  induction entries generalizing m with
  | nil =>
    obtain rfl := Except.ok.inj h
    rfl
  | cons e entries ih =>
    obtain ⟨k, _ | v⟩ := e
    · exact absurd h (by rintro ⟨⟩)
    · obtain ⟨v', _, h⟩ := bind_ok.1 h
      obtain ⟨m', hm', h⟩ := bind_ok.1 h
      obtain rfl := Except.ok.inj h
      exact congrArg (k :: ·) (ih hm')

mutual

theorem from_tryFrom : (w : Wire.Var) → {v : Var} → tryFromVar w = .ok v → WireOrdered w → fromVar v = w
  | ⟨none⟩, _, h, _ => absurd h (by rintro ⟨⟩)
  | ⟨some value⟩, _, h, hw => from_tryFromValue value h hw

theorem from_tryFromValue : (value : Wire.Value) → {v : Var} → tryFromValue value = .ok v → WireOrderedValue value →
    fromVar v = ⟨some value⟩
  | .stringValue _, _, h, _ | .intValue _, _, h, _ | .floatValue _, _, h, _ | .boolValue _, _, h, _
  | .vec2Value _ _, _, h, _ | .vec3Value _ _ _, _, h, _ | .byteValue [_], _, h, _ => by
    obtain rfl := Except.ok.inj h
    rfl
  | .byteValue [], _, h, _ | .byteValue (_ :: _ :: _), _, h, _ => absurd h (by rintro ⟨⟩)
  | .listValue vars, _, h, hw => by
    obtain ⟨l, hl, h⟩ := bind_ok.1 h
    obtain rfl := Except.ok.inj h
    rw [fromVar, froms_tryFroms vars hl hw]
  | .gridValue rows, _, h, hw => by
    obtain ⟨g, hg, h⟩ := bind_ok.1 h
    obtain rfl := Except.ok.inj h
    rw [fromVar, fromRows_tryFrom rows hg hw]
  | .mapValue entries, _, h, hw => by
    obtain ⟨m, hm, h⟩ := bind_ok.1 h
    obtain rfl := Except.ok.inj h
    -- entries that come in key order are collected as they are
    have hsorted : Sorted m := by
      rw [Core.SortedMap.sorted_iff_keys, keys_of_tryFromEntries hm]
      exact Core.SortedMap.sorted_iff_keys.mp hw.1
    rw [fromVar, collect_eq_self hsorted, fromEntries_tryFrom entries hm hw.2]

theorem froms_tryFroms : (ws : List Wire.Var) → {vs : List Var} → tryFromVars ws = .ok vs → WireOrderedAll ws →
    fromVars vs = ws
  | [], _, h, _ => by
    obtain rfl := Except.ok.inj h
    rfl
  | w :: ws, _, h, hw => by
    obtain ⟨v, hv, h⟩ := bind_ok.1 h
    obtain ⟨vs, hvs, h⟩ := bind_ok.1 h
    obtain rfl := Except.ok.inj h
    rw [fromVars, from_tryFrom w hv hw.1, froms_tryFroms ws hvs hw.2]

theorem fromRows_tryFrom : (rows : List (List Wire.Var)) → {g : List (List Var)} → tryFromRows rows = .ok g →
    WireOrderedRows rows → fromRows g = rows
  | [], _, h, _ => by
    obtain rfl := Except.ok.inj h
    rfl
  | row :: rows, _, h, hw => by
    obtain ⟨r, hr, h⟩ := bind_ok.1 h
    obtain ⟨g, hg, h⟩ := bind_ok.1 h
    obtain rfl := Except.ok.inj h
    rw [fromRows, froms_tryFroms row hr hw.1, fromRows_tryFrom rows hg hw.2]

theorem fromEntries_tryFrom : (entries : List (String × Option Wire.Var)) → {m : List (String × Var)} →
    tryFromEntries entries = .ok m → WireOrderedEntries entries → fromEntries m = entries
  | [], _, h, _ => by
    obtain rfl := Except.ok.inj h
    rfl
  | (_, none) :: _, _, h, _ => absurd h (by rintro ⟨⟩)
  | (k, some w) :: entries, _, h, hw => by
    obtain ⟨v, hv, h⟩ := bind_ok.1 h
    obtain ⟨m, hm, h⟩ := bind_ok.1 h
    obtain rfl := Except.ok.inj h
    rw [fromEntries, from_tryFrom w hv hw.1, fromEntries_tryFrom entries hm hw.2]

end

theorem orderedEntries_iff {m : List (String × Var)} : OrderedEntries m ↔ ∀ e ∈ m, Ordered e.2 := by
  induction m with
  | nil => simp [OrderedEntries]
  | cons e m ih => simp [OrderedEntries, ih]

mutual

/-- what is accepted has its maps in key order -/
theorem tryFromVar_ordered : (w : Wire.Var) → {v : Var} → tryFromVar w = .ok v → Ordered v
  | ⟨none⟩, _, h => absurd h (by rintro ⟨⟩)
  | ⟨some value⟩, _, h => tryFromValue_ordered value h

theorem tryFromValue_ordered : (value : Wire.Value) → {v : Var} → tryFromValue value = .ok v → Ordered v
  | .stringValue _, _, h | .intValue _, _, h | .floatValue _, _, h | .boolValue _, _, h | .vec2Value _ _, _, h
  | .vec3Value _ _ _, _, h | .byteValue [_], _, h => by
    obtain rfl := Except.ok.inj h
    trivial
  | .byteValue [], _, h | .byteValue (_ :: _ :: _), _, h => absurd h (by rintro ⟨⟩)
  | .listValue vars, _, h => by
    obtain ⟨l, hl, h⟩ := bind_ok.1 h
    obtain rfl := Except.ok.inj h
    exact tryFromVars_ordered vars hl
  | .gridValue rows, _, h => by
    obtain ⟨g, hg, h⟩ := bind_ok.1 h
    obtain rfl := Except.ok.inj h
    exact tryFromRows_ordered rows hg
  | .mapValue entries, _, h => by
    obtain ⟨m, hm, h⟩ := bind_ok.1 h
    obtain rfl := Except.ok.inj h
    have hall := orderedEntries_iff.1 (tryFromEntries_ordered entries hm)
    exact ⟨collect_sorted m, orderedEntries_iff.2 fun e he => hall e (Core.SortedMap.mem_of_mem_collect he)⟩

theorem tryFromVars_ordered : (ws : List Wire.Var) → {vs : List Var} → tryFromVars ws = .ok vs → OrderedAll vs
  | [], _, h => by
    obtain rfl := Except.ok.inj h
    trivial
  | w :: ws, _, h => by
    obtain ⟨v, hv, h⟩ := bind_ok.1 h
    obtain ⟨vs, hvs, h⟩ := bind_ok.1 h
    obtain rfl := Except.ok.inj h
    exact ⟨tryFromVar_ordered w hv, tryFromVars_ordered ws hvs⟩

theorem tryFromRows_ordered : (rows : List (List Wire.Var)) → {g : List (List Var)} → tryFromRows rows = .ok g →
    OrderedRows g
  | [], _, h => by
    obtain rfl := Except.ok.inj h
    trivial
  | row :: rows, _, h => by
    obtain ⟨r, hr, h⟩ := bind_ok.1 h
    obtain ⟨g, hg, h⟩ := bind_ok.1 h
    obtain rfl := Except.ok.inj h
    exact ⟨tryFromVars_ordered row hr, tryFromRows_ordered rows hg⟩

theorem tryFromEntries_ordered : (entries : List (String × Option Wire.Var)) → {m : List (String × Var)} →
    tryFromEntries entries = .ok m → OrderedEntries m
  | [], _, h => by
    obtain rfl := Except.ok.inj h
    trivial
  | (_, none) :: _, _, h => absurd h (by rintro ⟨⟩)
  | (k, some w) :: entries, _, h => by
    obtain ⟨v, hv, h⟩ := bind_ok.1 h
    obtain ⟨m, hm, h⟩ := bind_ok.1 h
    obtain rfl := Except.ok.inj h
    exact ⟨tryFromVar_ordered w hv, tryFromEntries_ordered entries hm⟩

end

/-- a value as the code has it: maps are in key order -/
abbrev OrderedVar := { v : Var // Ordered v }

/-- **Values in messages.** Every value comes back from its message, and a message that is accepted and has its map
entries in key order is the message of the value it stands for. -/
theorem var_round_trip :
    (∀ v : OrderedVar, tryFromVar (fromVar v.1) = .ok v.1) ∧
      ∀ (w : Wire.Var) (v : OrderedVar), tryFromVar w = .ok v.1 → WireOrdered w → fromVar v.1 = w :=
  ⟨fun v => tryFrom_from v.1 v.2, fun w _ h hw => from_tryFrom w h hw⟩

/-- a map whose one entry is a grid with an empty row -/
def gridInMap : OrderedVar :=
  ⟨.map [("a", .grid [[.byte 1], []])], List.pairwise_singleton _ _, ⟨⟨trivial, trivial⟩, trivial, trivial⟩, trivial⟩

/-- the message of the same map -/
def gridInMapMessage : Wire.Var :=
  ⟨some (.mapValue [("a", some ⟨some (.gridValue [[⟨some (.byteValue [1])⟩], []])⟩)])⟩

theorem gridInMap_round_trip :
    tryFromVar (fromVar gridInMap.1) = .ok gridInMap.1 ∧ fromVar gridInMap.1 = gridInMapMessage :=
  ⟨var_round_trip.1 gridInMap, var_round_trip.2 gridInMapMessage gridInMap rfl
    ⟨List.pairwise_singleton _ _, ⟨⟨trivial, trivial⟩, trivial, trivial⟩, trivial⟩⟩

end BigWorlds.Grpc
