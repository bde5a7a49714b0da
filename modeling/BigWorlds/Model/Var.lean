/-
Variable types and values (`var.rs`). `Float` is the 32-bit float, kept as its bit pattern: nothing modelled computes
with floats. `Int` is the 32-bit integer. A map value is the list of its entries in key order.
-/
import Mathlib.Data.List.Basic

namespace BigWorlds

inductive VarType where
  | string | int | float | bool | byte | vec2 | vec3
  | stringList | intList | floatList | boolList | byteList | vec2List | vec3List | list
  | stringGrid | intGrid | floatGrid | boolGrid | byteGrid | vec2Grid | vec3Grid | grid
  | map
deriving DecidableEq, Repr

inductive Var where
  | string (v : String)
  | int (v : Int32)
  | float (bits : UInt32)
  | bool (v : Bool)
  | byte (v : UInt8)
  | vec2 (x y : UInt32)
  | vec3 (x y z : UInt32)
  | list (l : List Var)
  | grid (g : List (List Var))
  | map (m : List (String × Var))
deriving Repr

/-- `VarType::default_value`: the same table as `Var::new` -/
def VarType.defaultValue : VarType → Var
  | .string => .string ""
  | .int => .int 0
  | .float => .float 0
  | .bool => .bool false
  | .byte => .byte 0
  | .vec2 => .vec2 0 0
  | .vec3 => .vec3 0 0 0
  | .stringList | .intList | .floatList | .boolList | .byteList | .vec2List | .vec3List | .list => .list []
  | .stringGrid | .intGrid | .floatGrid | .boolGrid | .byteGrid | .vec2Grid | .vec3Grid | .grid => .grid []
  | .map => .map []

/-- `Var::get_type`: lists and grids go by their first value -/
def Var.getType : Var → VarType
  | .string _ => .string
  | .int _ => .int
  | .float _ => .float
  | .bool _ => .bool
  | .byte _ => .byte
  | .vec2 _ _ => .vec2
  | .vec3 _ _ _ => .vec3
  | .list (first :: _) =>
    match first.getType with
    | .string => .stringList
    | .int => .intList
    | .float => .floatList
    | .bool => .boolList
    | .byte => .byteList
    | .vec2 => .vec2List
    | .vec3 => .vec3List
    | _ => .list
  | .list [] => .list
  | .grid ((first :: _) :: _) =>
    match first.getType with
    | .string => .stringGrid
    | .int => .intGrid
    | .float => .floatGrid
    | .bool => .boolGrid
    | .byte => .byteGrid
    | .vec2 => .vec2Grid
    | .vec3 => .vec3Grid
    | _ => .grid
  | .grid _ => .grid
  | .map _ => .map

/-! ## Equality of values -/

mutual

def Var.beq : Var → Var → Bool
  | .string a, .string b => a == b
  | .int a, .int b => a == b
  | .float a, .float b => a == b
  | .bool a, .bool b => a == b
  | .byte a, .byte b => a == b
  | .vec2 a b, .vec2 c d => a == c && b == d
  | .vec3 a b c, .vec3 d e f => a == d && b == e && c == f
  | .list a, .list b => Var.beqList a b
  | .grid a, .grid b => Var.beqGrid a b
  | .map a, .map b => Var.beqMap a b
  | _, _ => false

def Var.beqList : List Var → List Var → Bool
  | [], [] => true
  | a :: as, b :: bs => Var.beq a b && Var.beqList as bs
  | _, _ => false

def Var.beqGrid : List (List Var) → List (List Var) → Bool
  | [], [] => true
  | a :: as, b :: bs => Var.beqList a b && Var.beqGrid as bs
  | _, _ => false

def Var.beqMap : List (String × Var) → List (String × Var) → Bool
  | [], [] => true
  | (k, a) :: as, (l, b) :: bs => k == l && Var.beq a b && Var.beqMap as bs
  | _, _ => false

end

mutual

theorem Var.beq_iff : (a b : Var) → (Var.beq a b = true ↔ a = b)
  | .string a, b => by cases b <;> simp [Var.beq]
  | .int a, b => by cases b <;> simp [Var.beq]
  | .float a, b => by cases b <;> simp [Var.beq]
  | .bool a, b => by cases b <;> simp [Var.beq]
  | .byte a, b => by cases b <;> simp [Var.beq]
  | .vec2 x y, b => by cases b <;> simp [Var.beq]
  | .vec3 x y z, b => by cases b <;> simp [Var.beq, and_assoc]
  | .list a, b => by cases b <;> simp [Var.beq, Var.beqList_iff a]
  | .grid a, b => by cases b <;> simp [Var.beq, Var.beqGrid_iff a]
  | .map a, b => by cases b <;> simp [Var.beq, Var.beqMap_iff a]

theorem Var.beqList_iff : (a b : List Var) → (Var.beqList a b = true ↔ a = b)
  | [], b => by cases b <;> simp [Var.beqList]
  | a :: as, b => by cases b <;> simp [Var.beqList, Var.beq_iff a, Var.beqList_iff as]

theorem Var.beqGrid_iff : (a b : List (List Var)) → (Var.beqGrid a b = true ↔ a = b)
  | [], b => by cases b <;> simp [Var.beqGrid]
  | a :: as, b => by cases b <;> simp [Var.beqGrid, Var.beqList_iff a, Var.beqGrid_iff as]

theorem Var.beqMap_iff : (a b : List (String × Var)) → (Var.beqMap a b = true ↔ a = b)
  | [], b => by cases b <;> simp [Var.beqMap]
  | (k, a) :: as, b => by
    cases b with
    | nil => simp [Var.beqMap]
    | cons b bs =>
      obtain ⟨l, b⟩ := b
      simp [Var.beqMap, Var.beq_iff a, Var.beqMap_iff as, and_assoc]

end

instance : DecidableEq Var := fun a b => decidable_of_iff _ (Var.beq_iff a b)

end BigWorlds
