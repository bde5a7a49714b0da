/-
The text forms of variable types and addresses (`var.rs` `VarType::from_str`, `to_str`; `address.rs`).

Reading a type that is not known panics (`unimplemented!()`); the error for an invalid type is never reached. The names
that are read and the names that are printed are two tables: `list` and `grid` are printed and not read, and grids of
strings are printed as `grid_str` and read as `grid_string`.

- `VarType.fromStr_eq_some_iff`: the names of a type that are read;
- `address_text_iff`: an address with names free of the separator is read back from its text exactly if its type is none
  of those three, and an address that was read is read back from its text unless it is one of a grid of strings.
-/
import BigWorlds.Core.Split
import BigWorlds.Machine.Command

namespace BigWorlds

open BigWorlds.Core (split joined split_joined split_eq_iff not_mem_of_mem_split)

/-! ## Types -/

/-- `VarType::to_str` -/
def VarType.toStr : VarType → String
  | .string => "string"
  | .int => "int"
  | .float => "float"
  | .bool => "bool"
  | .byte => "byte"
  | .vec2 => "vec2"
  | .vec3 => "vec3"
  | .list => "list"
  | .grid => "grid"
  | .map => "map"
  | .stringList => "list_str"
  | .intList => "list_int"
  | .floatList => "list_float"
  | .boolList => "list_bool"
  | .byteList => "list_byte"
  | .vec2List => "list_vec2"
  | .vec3List => "list_vec3"
  | .stringGrid => "grid_str"
  | .intGrid => "grid_int"
  | .floatGrid => "grid_float"
  | .boolGrid => "grid_bool"
  | .byteGrid => "grid_byte"
  | .vec2Grid => "grid_vec2"
  | .vec3Grid => "grid_vec3"

/-- the second part of a list type's name; none panics -/
def VarType.listOf : String → Option VarType
  | "string" | "str" => some .stringList
  | "int" => some .intList
  | "float" => some .floatList
  | "bool" => some .boolList
  | "byte" => some .byteList
  | "vec2" => some .vec2List
  | "vec3" => some .vec3List
  | _ => none

/-- the second part of a grid type's name; none panics -/
def VarType.gridOf : String → Option VarType
  | "string" => some .stringGrid
  | "int" => some .intGrid
  | "float" => some .floatGrid
  | "bool" => some .boolGrid
  | "byte" => some .byteGrid
  | "vec2" => some .vec2Grid
  | "vec3" => some .vec3Grid
  | _ => none

/-- `VarType::from_str`; none panics -/
def VarType.fromStr (s : String) : Option VarType :=
  match s with
  | "string" | "str" => some .string
  | "int" => some .int
  | "float" => some .float
  | "bool" => some .bool
  | "byte" => some .byte
  | "vec2" => some .vec2
  | "vec3" => some .vec3
  | "map" => some .map
  | s =>
    match split '_' s with
    | ["list", second] => listOf second
    | ["grid", second] => gridOf second
    | _ => none

/-- the names that are read as a type -/
def VarType.spellings : VarType → List String
  | .string => ["string", "str"]
  | .list | .grid => []
  | .stringList => ["list_string", "list_str"]
  | .stringGrid => ["grid_string"]
  | t => [t.toStr]

theorem VarType.fromStr_of_mem {s : String} {t : VarType} (h : s ∈ t.spellings) : fromStr s = some t := by
  have hall : ∀ s ∈ t.spellings, fromStr s = some t := by
    cases t <;> decide
  exact hall s h

theorem VarType.fromStr_eq_some_iff {s : String} {t : VarType} : fromStr s = some t ↔ s ∈ t.spellings := by
  refine ⟨fun h => ?_, fromStr_of_mem⟩
  unfold fromStr at h
  split at h
  case h_10 =>
    split at h
    · rename_i second hsplit
      obtain ⟨rfl, _⟩ := (split_eq_iff (by simp)).mp hsplit
      unfold listOf at h
      split at h <;> first
        | (obtain rfl := Option.some.inj h; decide)
        | exact absurd h (by simp)
    · rename_i second hsplit
      obtain ⟨rfl, _⟩ := (split_eq_iff (by simp)).mp hsplit
      unfold gridOf at h
      split at h <;> first
        | (obtain rfl := Option.some.inj h; decide)
        | exact absurd h (by simp)
    · exact absurd h (by simp)
  all_goals
    obtain rfl := Option.some.inj h
    decide

/-- the types whose printed name is read -/
def VarType.readable : VarType → Bool
  | .list | .grid | .stringGrid => false
  | _ => true

theorem VarType.readable_eq_true_iff {t : VarType} : t.readable = true ↔ t ≠ .list ∧ t ≠ .grid ∧ t ≠ .stringGrid := by
  cases t <;> decide

theorem VarType.fromStr_toStr_iff (t t' : VarType) : fromStr t.toStr = some t' ↔ t.readable = true ∧ t' = t := by
  rw [fromStr_eq_some_iff]
  cases t <;> cases t' <;> decide

theorem VarType.not_mem_toStr (t : VarType) : '.' ∉ t.toStr.toList := by
  cases t <;> decide

/-- a name of a type that is read is free of the separator -/
theorem VarType.readable_or {s : String} {t : VarType} (h : fromStr s = some t) :
    t.readable = true ∨ t = .stringGrid := by
  rw [fromStr_eq_some_iff] at h
  cases t with
  | list | grid => exact absurd h (by simp [spellings])
  | stringGrid => exact Or.inr rfl
  | _ => exact Or.inl rfl

/-! ## Addresses -/

/-- how reading an address fails: with an error, or by a panic -/
inductive AddressFailure where
  | invalidLocalAddress (text : String)
  | failedCreatingAddress (text : String)
  | panic
deriving DecidableEq, Repr

/-- `VarType::from_str`, which fails by a panic only -/
def VarType.read (s : String) : Except AddressFailure VarType :=
  match fromStr s with
  | some t => .ok t
  | none => .error .panic

def LocalAddress.toString (a : LocalAddress) : String := a.comp ++ "." ++ a.varType.toStr ++ "." ++ a.varName

def Address.toString (a : Address) : String :=
  a.entity ++ "." ++ a.comp ++ "." ++ a.varType.toStr ++ "." ++ a.varName

def LocalAddress.fromStr (s : String) : Except AddressFailure LocalAddress :=
  match split '.' s with
  | [comp, varType, varName] => do return ⟨comp, ← VarType.read varType, varName⟩
  | _ => .error (.invalidLocalAddress s)

def Address.fromStr (s : String) : Except AddressFailure Address :=
  match split '.' s with
  | [entity, comp, varType, varName] => do return ⟨entity, comp, ← VarType.read varType, varName⟩
  | _ => .error (.failedCreatingAddress s)

namespace Machine

def ShortLocalAddress.toString (a : ShortLocalAddress) : String :=
  match a.comp with
  | some c => c ++ "." ++ a.varType.toStr ++ "." ++ a.varName
  | none => a.varType.toStr ++ "." ++ a.varName

def ShortLocalAddress.fromStr (s : String) : Except AddressFailure ShortLocalAddress :=
  match split '.' s with
  | [varType, varName] => do return ⟨none, ← VarType.read varType, varName⟩
  | [comp, varType, varName] => do return ⟨some comp, ← VarType.read varType, varName⟩
  | _ => .error (.invalidLocalAddress s)

end Machine

open Machine (ShortLocalAddress)

/-- a name without the separator -/
def SeparatorFree (name : String) : Prop := '.' ∉ name.toList

instance (name : String) : Decidable (SeparatorFree name) := inferInstanceAs (Decidable ('.' ∉ name.toList))

def LocalAddress.Named (a : LocalAddress) : Prop := SeparatorFree a.comp ∧ SeparatorFree a.varName

def Address.Named (a : Address) : Prop := SeparatorFree a.entity ∧ SeparatorFree a.comp ∧ SeparatorFree a.varName

def Machine.ShortLocalAddress.Named (a : ShortLocalAddress) : Prop :=
  (∀ comp ∈ a.comp, SeparatorFree comp) ∧ SeparatorFree a.varName

theorem VarType.read_eq_ok {s : String} {t : VarType} : read s = .ok t ↔ fromStr s = some t := by
  unfold read
  cases fromStr s <;> simp

/-- reading a type and going on with it -/
theorem bind_read_eq_ok {α : Type} {s : String} {f : VarType → α} {a : α} :
    (do return f (← VarType.read s) : Except AddressFailure α) = .ok a ↔ ∃ t, VarType.fromStr s = some t ∧ f t = a := by
  simp only [← VarType.read_eq_ok]
  cases VarType.read s with
  | error e => exact ⟨fun h => absurd h (by rintro ⟨⟩), fun ⟨_, h, _⟩ => absurd h (by rintro ⟨⟩)⟩
  | ok t =>
    constructor
    · intro h
      exact ⟨t, rfl, Except.ok.inj h⟩
    · rintro ⟨t', h, rfl⟩
      obtain rfl := Except.ok.inj h
      rfl

/-! ## The text splits into the parts -/

theorem joined_pair (a b : String) : joined '.' [a, b] = a ++ "." ++ b := by
  apply String.toList_inj.mp
  simp [joined, List.intercalate]

theorem joined_triple (a b c : String) : joined '.' [a, b, c] = a ++ "." ++ b ++ "." ++ c := by
  apply String.toList_inj.mp
  simp [joined, List.intercalate]

theorem joined_quadruple (a b c d : String) : joined '.' [a, b, c, d] = a ++ "." ++ b ++ "." ++ c ++ "." ++ d := by
  apply String.toList_inj.mp
  simp [joined, List.intercalate]

theorem VarType.separatorFree_toStr (t : VarType) : SeparatorFree t.toStr := t.not_mem_toStr

theorem LocalAddress.split_toString {a : LocalAddress} (h : a.Named) :
    split '.' a.toString = [a.comp, a.varType.toStr, a.varName] := by
  refine (split_eq_iff (by simp)).mpr ⟨(joined_triple _ _ _).symm, ?_⟩
  simp only [List.mem_cons, List.not_mem_nil, or_false, forall_eq_or_imp, forall_eq]
  exact ⟨h.1, a.varType.separatorFree_toStr, h.2⟩

theorem Address.split_toString {a : Address} (h : a.Named) :
    split '.' a.toString = [a.entity, a.comp, a.varType.toStr, a.varName] := by
  refine (split_eq_iff (by simp)).mpr ⟨(joined_quadruple _ _ _ _).symm, ?_⟩
  simp only [List.mem_cons, List.not_mem_nil, or_false, forall_eq_or_imp, forall_eq]
  exact ⟨h.1, h.2.1, a.varType.separatorFree_toStr, h.2.2⟩

theorem Machine.ShortLocalAddress.split_toString {a : ShortLocalAddress} (h : a.Named) :
    split '.' a.toString = a.comp.toList ++ [a.varType.toStr, a.varName] := by
  obtain ⟨comp, varType, varName⟩ := a
  cases comp with
  | none =>
    refine (split_eq_iff (by simp)).mpr ⟨(joined_pair _ _).symm, ?_⟩
    simp only [Option.toList_none, List.nil_append, List.mem_cons, List.not_mem_nil, or_false, forall_eq_or_imp,
      forall_eq]
    exact ⟨varType.separatorFree_toStr, h.2⟩
  | some c =>
    refine (split_eq_iff (by simp)).mpr ⟨(joined_triple _ _ _).symm, ?_⟩
    simp only [Option.toList_some, List.cons_append, List.nil_append, List.mem_cons, List.not_mem_nil, or_false,
      forall_eq_or_imp, forall_eq]
    exact ⟨h.1 c rfl, varType.separatorFree_toStr, h.2⟩

/-! ## Round trips -/

/-- what is made of its printed type is read back exactly if the type is -/
theorem bind_read_toStr_iff {α : Type} (f : VarType → α) (t : VarType) :
    (do return f (← VarType.read t.toStr) : Except AddressFailure α) = .ok (f t) ↔ t.readable = true := by
  simp only [bind_read_eq_ok, VarType.fromStr_toStr_iff]
  constructor
  · rintro ⟨t', ⟨hr, _⟩, _⟩
    exact hr
  · intro hr
    exact ⟨t, ⟨hr, rfl⟩, rfl⟩

/-- an address with names of its own is read back exactly if its type is -/
theorem LocalAddress.fromStr_toString_iff {a : LocalAddress} (h : a.Named) :
    fromStr a.toString = .ok a ↔ a.varType.readable = true := by
  rw [fromStr, split_toString h]
  exact bind_read_toStr_iff (fun t => (⟨a.comp, t, a.varName⟩ : LocalAddress)) a.varType

theorem Address.fromStr_toString_iff {a : Address} (h : a.Named) :
    fromStr a.toString = .ok a ↔ a.varType.readable = true := by
  rw [fromStr, split_toString h]
  exact bind_read_toStr_iff (fun t => (⟨a.entity, a.comp, t, a.varName⟩ : Address)) a.varType

theorem Machine.ShortLocalAddress.fromStr_toString_iff {a : ShortLocalAddress} (h : a.Named) :
    fromStr a.toString = .ok a ↔ a.varType.readable = true := by
  rw [fromStr, split_toString h]
  obtain ⟨comp, varType, varName⟩ := a
  cases comp with
  | none => exact bind_read_toStr_iff (fun t => (⟨none, t, varName⟩ : ShortLocalAddress)) varType
  | some c => exact bind_read_toStr_iff (fun t => (⟨some c, t, varName⟩ : ShortLocalAddress)) varType

theorem VarType.read_toStr_eq {t : VarType} (h : t.readable = false) : read t.toStr = .error .panic := by
  unfold read
  cases hread : fromStr t.toStr with
  | none => rfl
  | some t' =>
    have hr := ((fromStr_toStr_iff t t').mp hread).1
    exact absurd (h.symm.trans hr) (by simp)

/-- the text has four parts, so only the type can be refused, and that panics -/
theorem Address.fromStr_toString_panic {a : Address} (h : a.Named) (hr : a.varType.readable = false) :
    fromStr a.toString = .error .panic := by
  rw [fromStr, split_toString h]
  simp only [VarType.read_toStr_eq hr]
  rfl

theorem LocalAddress.fromStr_toString_panic {a : LocalAddress} (h : a.Named) (hr : a.varType.readable = false) :
    fromStr a.toString = .error .panic := by
  rw [fromStr, split_toString h]
  simp only [VarType.read_toStr_eq hr]
  rfl

/-- an address that was read has names of its own and a type that was read -/
theorem LocalAddress.named_of_fromStr {s : String} {a : LocalAddress} (h : fromStr s = .ok a) :
    a.Named ∧ ∃ name, VarType.fromStr name = some a.varType := by
  unfold fromStr at h
  split at h
  · rename_i comp varType varName hsplit
    obtain ⟨t, ht, rfl⟩ := bind_read_eq_ok.1 h
    have hfree : ∀ part ∈ split '.' s, SeparatorFree part := fun part hpart => not_mem_of_mem_split hpart
    rw [hsplit] at hfree
    exact ⟨⟨hfree comp (by simp), hfree varName (by simp)⟩, varType, ht⟩
  · exact absurd h (by rintro ⟨⟩)

theorem Address.named_of_fromStr {s : String} {a : Address} (h : fromStr s = .ok a) :
    a.Named ∧ ∃ name, VarType.fromStr name = some a.varType := by
  unfold fromStr at h
  split at h
  · rename_i entity comp varType varName hsplit
    obtain ⟨t, ht, rfl⟩ := bind_read_eq_ok.1 h
    have hfree : ∀ part ∈ split '.' s, SeparatorFree part := fun part hpart => not_mem_of_mem_split hpart
    rw [hsplit] at hfree
    exact ⟨⟨hfree entity (by simp), hfree comp (by simp), hfree varName (by simp)⟩, varType, ht⟩
  · exact absurd h (by rintro ⟨⟩)

theorem Machine.ShortLocalAddress.named_of_fromStr {s : String} {a : ShortLocalAddress} (h : fromStr s = .ok a) :
    a.Named ∧ ∃ name, VarType.fromStr name = some a.varType := by
  unfold fromStr at h
  have hfree : ∀ part ∈ split '.' s, SeparatorFree part := fun part hpart => not_mem_of_mem_split hpart
  split at h
  · rename_i varType varName hsplit
    obtain ⟨t, ht, rfl⟩ := bind_read_eq_ok.1 h
    rw [hsplit] at hfree
    exact ⟨⟨fun comp hcomp => absurd hcomp (by simp), hfree varName (by simp)⟩, varType, ht⟩
  · rename_i comp varType varName hsplit
    obtain ⟨t, ht, rfl⟩ := bind_read_eq_ok.1 h
    rw [hsplit] at hfree
    refine ⟨⟨?_, hfree varName (by simp)⟩, varType, ht⟩
    intro c hc
    obtain rfl : comp = c := Option.some.inj hc
    exact hfree comp (by simp)
  · exact absurd h (by rintro ⟨⟩)

theorem VarType.readable_iff_of_fromStr {t : VarType} (h : ∃ name, fromStr name = some t) :
    t.readable = true ↔ t ≠ .stringGrid := by
  obtain ⟨name, hname⟩ := h
  constructor
  · rintro hr rfl
    exact absurd hr (by decide)
  · intro hne
    exact (readable_or hname).resolve_right hne

/-- the text of an address of a type is read back as the address -/
structure AddressText (t : VarType) (readable reread : Prop) : Prop where
  /-- for addresses with names free of the separator -/
  address : ∀ a : Address, a.Named → a.varType = t → (Address.fromStr a.toString = .ok a ↔ readable)
  localAddress : ∀ a : LocalAddress, a.Named → a.varType = t → (LocalAddress.fromStr a.toString = .ok a ↔ readable)
  short : ∀ a : ShortLocalAddress, a.Named → a.varType = t → (ShortLocalAddress.fromStr a.toString = .ok a ↔ readable)
  /-- for addresses that were read from a text -/
  addressRead : ∀ s a, Address.fromStr s = .ok a → a.varType = t → (Address.fromStr a.toString = .ok a ↔ reread)
  localAddressRead : ∀ s a, LocalAddress.fromStr s = .ok a → a.varType = t →
    (LocalAddress.fromStr a.toString = .ok a ↔ reread)
  shortRead : ∀ s a, ShortLocalAddress.fromStr s = .ok a → a.varType = t →
    (ShortLocalAddress.fromStr a.toString = .ok a ↔ reread)

/-- **Address text.** An address is read back from its text exactly if it is not one of a plain list, a plain grid or
a grid of strings, and an address that was read exactly if it is not one of a grid of strings. -/
theorem address_text_iff (t : VarType) :
    AddressText t (t ≠ .list ∧ t ≠ .grid ∧ t ≠ .stringGrid) (t ≠ .stringGrid) where
  address a h ht := by
    rw [Address.fromStr_toString_iff h, VarType.readable_eq_true_iff, ht]
  localAddress a h ht := by
    rw [LocalAddress.fromStr_toString_iff h, VarType.readable_eq_true_iff, ht]
  short a h ht := by
    rw [ShortLocalAddress.fromStr_toString_iff h, VarType.readable_eq_true_iff, ht]
  addressRead s a h ht := by
    obtain ⟨hnamed, hread⟩ := Address.named_of_fromStr h
    rw [Address.fromStr_toString_iff hnamed, VarType.readable_iff_of_fromStr hread, ht]
  localAddressRead s a h ht := by
    obtain ⟨hnamed, hread⟩ := LocalAddress.named_of_fromStr h
    rw [LocalAddress.fromStr_toString_iff hnamed, VarType.readable_iff_of_fromStr hread, ht]
  shortRead s a h ht := by
    obtain ⟨hnamed, hread⟩ := ShortLocalAddress.named_of_fromStr h
    rw [ShortLocalAddress.fromStr_toString_iff hnamed, VarType.readable_iff_of_fromStr hread, ht]

/-- the address of a list is printed and not read, and that of a grid of strings is read, printed and not read -/
theorem address_text_lost :
    Address.fromStr (Address.toString ⟨"e", "c", .list, "x"⟩) = .error .panic ∧
      LocalAddress.fromStr "c.grid_string.x" = .ok ⟨"c", .stringGrid, "x"⟩ ∧
      LocalAddress.fromStr (LocalAddress.toString ⟨"c", .stringGrid, "x"⟩) = .error .panic := by
  decide

end BigWorlds
