/-
JSON values and the variables that are made of them (`var.rs`, `VarType::from_json_value`, `Var::from_serde`).

The conversion does not look at the type that is declared, unless the value is an array and the type is a vector. A
number above the largest signed one panics, as does an array for a vector of three.

- `fromSerde_isSome`: when a value is converted;
- `fromSerde_getType`: the type that it is stored with.
-/
import BigWorlds.Text.Address

namespace BigWorlds

open Machine (ShortLocalAddress)

/-- the numbers of the JSON library: not negative, negative, or a float of 64 bits -/
inductive JsonNumber where
  | posInt (n : UInt64)
  | negInt (i : Int64)
  | float (bits : UInt64)
deriving DecidableEq, Repr

/-- the entries of an object are in the order of their keys -/
inductive Json where
  | null
  | bool (b : Bool)
  | number (n : JsonNumber)
  | string (s : String)
  | array (l : List Json)
  | object (m : List (String × Json))
deriving Repr

/-- `as_i64` and then `as i32`; none panics -/
def JsonNumber.toInt32 : JsonNumber → Option Int32
  | .posInt n => if n.toNat < 2 ^ 63 then some (.ofNat n.toNat) else none
  | .negInt i => some i.toInt32
  | .float _ => none

/-- `VarType::from_json_value` -/
def VarType.fromJsonValue : Json → VarType
  | .null => .bool
  | .bool _ => .bool
  | .number (.float _) => .float
  | .number _ => .int
  | .string _ => .string
  | .array _ => .list
  | .object _ => .map

section
variable (asF32 : JsonNumber → UInt32)

/-- an element of the array as a coordinate; what is missing or not a number is zero -/
def coordinate (l : List Json) (i : ℕ) : UInt32 :=
  match l[i]? with
  | some (.number n) => asF32 n
  | _ => 0

mutual

/-- `Var::from_serde`; none panics. How a number is rounded to 32 bits, `asF32`, is the library's. -/
def Var.fromSerde (addr : Option ShortLocalAddress) : Json → Option Var
  | .null => some (.int 0)
  | .bool b => some (.bool b)
  | .number (.float bits) => some (.float (asF32 (.float bits)))
  | .number n => n.toInt32.map .int
  | .string s => some (.string s)
  | .array l =>
    match addr.map ShortLocalAddress.varType with
    | some .vec2 => some (.vec2 (coordinate asF32 l 0) (coordinate asF32 l 1))
    | some .vec3 => none
    | _ => (Var.fromSerdeAll l).map .list
  | .object m => (Var.fromSerdeEntries m).map .map

def Var.fromSerdeAll : List Json → Option (List Var)
  | [] => some []
  | v :: l =>
    match Var.fromSerde none v, Var.fromSerdeAll l with
    | some var, some vars => some (var :: vars)
    | _, _ => none

def Var.fromSerdeEntries : List (String × Json) → Option (List (String × Var))
  | [] => some []
  | (k, v) :: m =>
    match Var.fromSerde none v, Var.fromSerdeEntries m with
    | some var, some vars => some ((k, var) :: vars)
    | _, _ => none

end

end

/-! ## When a value is converted -/

namespace Json

mutual

/-- no number in the value is above the largest signed one -/
def fits : Json → Bool
  | .number (.posInt n) => n.toNat < 2 ^ 63
  | .array l => fitsAll l
  | .object m => fitsEntries m
  | _ => true

def fitsAll : List Json → Bool
  | [] => true
  | v :: l => v.fits && fitsAll l

def fitsEntries : List (String × Json) → Bool
  | [] => true
  | (_, v) :: m => v.fits && fitsEntries m

end

/-- the type that the value is stored with when no vector is declared -/
def storedType : Json → VarType
  | .null => .int
  | .bool _ => .bool
  | .number (.float _) => .float
  | .number _ => .int
  | .string _ => .string
  | .array [] => .list
  | .array (first :: _) =>
    match first.storedType with
    | .string => .stringList
    | .int => .intList
    | .float => .floatList
    | .bool => .boolList
    | _ => .list
  | .object _ => .map

/-- the value is converted where this type is declared -/
def storable : VarType → Json → Bool
  | .vec2, .array _ => true
  | .vec3, .array _ => false
  | _, v => v.fits

/-- the type that the value is stored with where this type is declared -/
def storedAs : VarType → Json → VarType
  | .vec2, .array _ => .vec2
  | _, v => v.storedType

end Json

variable {asF32 : JsonNumber → UInt32}

mutual

theorem fromSerde_none_isSome : (v : Json) → (Var.fromSerde asF32 none v).isSome = v.fits
  | .null => rfl
  | .bool _ => rfl
  | .number (.float _) => rfl
  | .number (.negInt _) => rfl
  | .number (.posInt n) => by
    simp only [Var.fromSerde, JsonNumber.toInt32, Json.fits, Option.isSome_map]
    split_ifs with h
    · exact (decide_eq_true h).symm
    · exact (decide_eq_false h).symm
  | .string _ => rfl
  | .array l => by
    simp only [Var.fromSerde, Option.map_none, Option.isSome_map, Json.fits]
    exact fromSerdeAll_isSome l
  | .object m => by
    simp only [Var.fromSerde, Option.isSome_map, Json.fits]
    exact fromSerdeEntries_isSome m

theorem fromSerdeAll_isSome : (l : List Json) → (Var.fromSerdeAll asF32 l).isSome = Json.fitsAll l
  | [] => rfl
  | v :: l => by
    rw [Json.fitsAll, ← fromSerde_none_isSome v, ← fromSerdeAll_isSome l, Var.fromSerdeAll]
    cases Var.fromSerde asF32 none v <;> cases Var.fromSerdeAll asF32 l <;> rfl

theorem fromSerdeEntries_isSome : (m : List (String × Json)) →
    (Var.fromSerdeEntries asF32 m).isSome = Json.fitsEntries m
  | [] => rfl
  | (k, v) :: m => by
    rw [Json.fitsEntries, ← fromSerde_none_isSome v, ← fromSerdeEntries_isSome m, Var.fromSerdeEntries]
    cases Var.fromSerde asF32 none v <;> cases Var.fromSerdeEntries asF32 m <;> rfl

end

/-- only where a vector is declared and the value is an array does the declared type count -/
theorem fromSerde_some (addr : ShortLocalAddress) (v : Json) : Var.fromSerde asF32 (some addr) v =
    match addr.varType, v with
    | .vec2, .array l => some (.vec2 (coordinate asF32 l 0) (coordinate asF32 l 1))
    | .vec3, .array _ => none
    | _, v => Var.fromSerde asF32 none v := by
  cases v with
  | array l =>
    rw [Var.fromSerde, Option.map_some]
    cases addr.varType <;> rfl
  | number n => cases n <;> cases addr.varType <;> rfl
  | _ => cases addr.varType <;> rfl

theorem fromSerde_isSome (addr : ShortLocalAddress) (v : Json) :
    (Var.fromSerde asF32 (some addr) v).isSome = Json.storable addr.varType v := by
  rw [fromSerde_some]
  unfold Json.storable
  split
  · rfl
  · rfl
  · exact fromSerde_none_isSome _

theorem storedType_ne (v : Json) : v.storedType ≠ .byte ∧ v.storedType ≠ .vec2 ∧ v.storedType ≠ .vec3 := by
  cases v with
  | number n => cases n <;> simp [Json.storedType]
  | array l =>
    cases l with
    | nil => simp [Json.storedType]
    | cons first l =>
      rw [Json.storedType]
      split <;> simp
  | _ => simp [Json.storedType]

theorem fromSerde_none_getType : (v : Json) → {d : Var} → Var.fromSerde asF32 none v = some d →
    d.getType = v.storedType
  | .null, d, h => by
    obtain rfl := Option.some.inj h
    rfl
  | .bool _, d, h => by
    obtain rfl := Option.some.inj h
    rfl
  | .number (.float _), d, h => by
    obtain rfl := Option.some.inj h
    rfl
  | .number (.negInt _), d, h => by
    obtain rfl := Option.some.inj h
    rfl
  | .number (.posInt n), d, h => by
    obtain ⟨i, _, rfl⟩ := Option.map_eq_some_iff.mp h
    rfl
  | .string _, d, h => by
    obtain rfl := Option.some.inj h
    rfl
  | .array [], d, h => by
    obtain rfl := Option.some.inj h
    rfl
  | .array (first :: l), d, h => by
    obtain ⟨vars, hvars, rfl⟩ := Option.map_eq_some_iff.mp h
    rw [Var.fromSerdeAll] at hvars
    split at hvars
    · rename_i var rest hfirst _
      obtain rfl := Option.some.inj hvars
      have htype := fromSerde_none_getType first hfirst
      obtain ⟨hbyte, hvec2, hvec3⟩ := storedType_ne first
      rw [Json.storedType, Var.getType, htype]
      generalize first.storedType = t at hbyte hvec2 hvec3
      cases t with
      | byte => exact absurd rfl hbyte
      | vec2 => exact absurd rfl hvec2
      | vec3 => exact absurd rfl hvec3
      | _ => rfl
    · cases hvars
  | .object m, d, h => by
    obtain ⟨vars, _, rfl⟩ := Option.map_eq_some_iff.mp h
    rfl

/-- the type that a value is stored with -/
theorem fromSerde_getType {addr : ShortLocalAddress} {v : Json} {d : Var}
    (h : Var.fromSerde asF32 (some addr) v = some d) : d.getType = Json.storedAs addr.varType v := by
  rw [fromSerde_some] at h
  split at h
  · rename_i l hvec2
    obtain rfl := Option.some.inj h
    rw [hvec2]
    rfl
  · cases h
  · rename_i hnot _
    rw [fromSerde_none_getType _ h]
    unfold Json.storedAs
    split
    · exact absurd rfl (hnot _ ‹addr.varType = .vec2›)
    · rfl

end BigWorlds
