/-
Numbers and values as text (`var.rs` `Var::to_string`, `Var::from_str`, and the decimal forms of the standard library).

- `parseU32_repr`: a 32-bit number is read back from its decimal form.
-/
import BigWorlds.Core.Split
import BigWorlds.Model.Var
import Mathlib.Algebra.Group.Nat.Defs
import Std.Data.String.ToNat

namespace BigWorlds

/-- the text without a plus in front -/
def withoutPlus : List Char → List Char
  | '+' :: rest => rest
  | rest => rest

/-- the number that decimal digits stand for -/
def digitsValue (digits : List Char) : Option ℕ :=
  if digits = [] then none
  else if digits.all Char.isDigit then some (Nat.ofDigitChars 10 digits 0)
  else none

/-- `str::parse::<u32>`: decimal digits, with or without a plus in front -/
def parseU32 (s : String) : Option UInt32 :=
  (digitsValue (withoutPlus s.toList)).bind fun n => if n < UInt32.size then some (.ofNat n) else none

theorem withoutPlus_digits (n : ℕ) : withoutPlus (Nat.toDigits 10 n) = Nat.toDigits 10 n := by
  unfold withoutPlus
  split
  · rename_i rest h
    have hdigit : ('+').isDigit = true :=
      Nat.isDigit_of_mem_toDigits (by omega) (by omega) (h ▸ List.mem_cons_self)
    exact absurd hdigit (by decide)
  · rfl

theorem digitsValue_toDigits (n : ℕ) : digitsValue (Nat.toDigits 10 n) = some n := by
  have hall : (Nat.toDigits 10 n).all Char.isDigit = true :=
    List.all_eq_true.mpr fun c hc => Nat.isDigit_of_mem_toDigits (by omega) (by omega) hc
  rw [digitsValue, if_neg Nat.toDigits_ne_nil, if_pos hall, Nat.ofDigitChars_ten_toDigits]

theorem parseU32_repr (x : UInt32) : parseU32 (Nat.repr x.toNat) = some x := by
  unfold parseU32
  rw [Nat.toList_repr, withoutPlus_digits, digitsValue_toDigits, Option.bind_some, if_pos x.toNat_lt]
  exact congrArg some (UInt32.ofNat_toNat (x := x))

/-- `Var::is_string` -/
def Var.isString : Var → Bool
  | .string _ => true
  | _ => false

/-- `Var::to_string`; how floats and nested values are formatted is the library's, `format` here -/
def Var.toString (format : Var → String) : Var → String
  | .string v => v
  | .int v => v.toInt.repr
  | .bool v => if v then "true" else "false"
  | .byte v => Nat.repr v.toNat
  | v => format v

/-! ## Reading values -/

/-- `str::parse::<i32>` -/
def parseI32 (s : String) : Option Int32 :=
  match s.toList with
  | '-' :: digits => (digitsValue digits).bind fun n => if n ≤ 2 ^ 31 then some (.ofInt (-(n : Int))) else none
  | cs => (digitsValue (withoutPlus cs)).bind fun n => if n < 2 ^ 31 then some (.ofInt n) else none

/-- `str::parse::<u8>` -/
def parseU8 (s : String) : Option UInt8 :=
  (digitsValue (withoutPlus s.toList)).bind fun n => if n < 2 ^ 8 then some (.ofNat n) else none

/-- `str::parse::<bool>` -/
def parseBool (s : String) : Option Bool :=
  if s = "true" then some true else if s = "false" then some false else none

/-- how reading a value fails: with an error, or by a panic -/
inductive ValueFailure where
  | invalid
  | panic
deriving DecidableEq, Repr

/-- a value that is read, or the error -/
def valid {α : Type} : Option α → Except ValueFailure α
  | some a => .ok a
  | none => .error .invalid

variable (parseFloat : String → Option UInt32)

/-- one element of `list_from_str`, which is unimplemented for lists without a type and lists of vectors -/
def elementFromStr (s : String) : VarType → Except ValueFailure Var
  | .stringList => .ok (.string s)
  | .intList => do return .int (← valid (parseI32 s))
  | .floatList => do return .float (← valid (parseFloat s))
  | .boolList => do return .bool (← valid (parseBool s))
  | .byteList => do return .byte (← valid (parseU8 s))
  | _ => .error .panic

/-- `list_from_str` from the pieces on -/
def elementsFromStr (t : VarType) : List String → Except ValueFailure (List Var)
  | [] => .ok []
  | s :: pieces => do
    let v ← elementFromStr parseFloat s t
    let vs ← elementsFromStr t pieces
    return v :: vs

/-- `Var::from_str` with a type, unimplemented for grids and maps -/
def Var.fromStrTyped (s : String) : VarType → Except ValueFailure Var
  | .string => .ok (.string s)
  | .int => do return .int (← valid (parseI32 s))
  | .float => do return .float (← valid (parseFloat s))
  | .bool => do return .bool (← valid (parseBool s))
  | .byte => do return .byte (← valid (parseU8 s))
  | .vec2 =>
    match Core.split ',' s with
    | [x, y] => do return .vec2 (← valid (parseFloat x)) (← valid (parseFloat y))
    | _ => .error .invalid
  | .vec3 =>
    match Core.split ',' s with
    | [x, y, z] => do return .vec3 (← valid (parseFloat x)) (← valid (parseFloat y)) (← valid (parseFloat z))
    | _ => .error .invalid
  | .map | .grid | .stringGrid | .intGrid | .floatGrid | .boolGrid | .byteGrid | .vec2Grid | .vec3Grid => .error .panic
  | t => do return .list (← elementsFromStr parseFloat t (Core.split ',' s))

variable {parseFloat} in
/-- a list is read from its pieces, by the type of its elements -/
theorem fromStrTyped_list {s : String} {t : VarType}
    (ht : t ∈ [VarType.stringList, .intList, .floatList, .boolList, .byteList]) :
    Var.fromStrTyped parseFloat s t = (do return .list (← elementsFromStr parseFloat t (Core.split ',' s))) := by
  simp only [List.mem_cons, List.not_mem_nil, or_false] at ht
  rcases ht with rfl | rfl | rfl | rfl | rfl <;> simp only [Var.fromStrTyped]

/-- `Var::from_str` without a type -/
def Var.fromStrUntyped (s : String) : Except ValueFailure Var :=
  if s.toList.head? = some '"' then
    if s.toList.getLast? = some '"' then .ok (.string s) else .error .invalid
  else if s = "true" then .ok (.bool true)
  else if s = "false" then .ok (.bool false)
  else
    match parseI32 s with
    | some i => .ok (.int i)
    | none => .ok (.string s)

end BigWorlds
