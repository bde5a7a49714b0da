/-
Texts on which reading a type or an address panics (`var.rs` `VarType::from_str`; `address.rs`).

Reading a type never comes back with an error: a name that is not known panics, in the arm for unknown names as in those
for the parts of a list's or a grid's name. Reading an address passes this on for a text with the right number of parts,
so a text that only looks like an address is neither an error nor, as an argument of `print`, plain text.

- `reading_returns_iff`: each of the four readers returns, and a `print` of one argument is made, exactly if what stands
  in the place of the type is the name of one.
-/
import BigWorlds.Machine.Construction

namespace BigWorlds

open BigWorlds.Core (split)
open Machine (ShortLocalAddress PrintFmt Libraries AddressTotal addressTotal_iff read_ne_panic_iff)

/-- the names of types -/
def typeNames : List String :=
  ["string", "str", "int", "float", "bool", "byte", "vec2", "vec3", "map",
    "list_string", "list_str", "list_int", "list_float", "list_bool", "list_byte", "list_vec2", "list_vec3",
    "grid_string", "grid_int", "grid_float", "grid_bool", "grid_byte", "grid_vec2", "grid_vec3"]

/-- the names of a type are among those of types -/
theorem VarType.spellings_subset (t : VarType) : t.spellings ⊆ typeNames := by
  cases t <;> decide

theorem exists_fromStr_iff {s : String} : (∃ t, VarType.fromStr s = some t) ↔ s ∈ typeNames := by
  constructor
  · intro ⟨t, h⟩
    exact t.spellings_subset (VarType.fromStr_eq_some_iff.mp h)
  · intro h
    have hall : ∀ s ∈ typeNames, (VarType.fromStr s).isSome := by decide
    exact Option.isSome_iff_exists.mp (hall s h)

/-- the part of a text that is read as a type, if its number of parts is that of an address -/
def typePart (parts : List String) : Option String :=
  match parts with
  | [_, _, varType, _] => some varType
  | _ => none

def localTypePart (parts : List String) : Option String :=
  match parts with
  | [_, varType, _] => some varType
  | _ => none

def shortTypePart (parts : List String) : Option String :=
  match parts with
  | [varType, _] | [_, varType, _] => some varType
  | _ => none

theorem VarType.read_ne_panic_iff (s : String) : VarType.read s ≠ .error .panic ↔ s ∈ typeNames := by
  rw [← exists_fromStr_iff, VarType.read]
  cases VarType.fromStr s <;> simp

theorem Address.fromStr_ne_panic_iff (s : String) :
    Address.fromStr s ≠ .error .panic ↔ ∀ name ∈ typePart (split '.' s), name ∈ typeNames := by
  unfold Address.fromStr typePart
  split
  · rename_i hsplit
    rw [Machine.read_ne_panic_iff, exists_fromStr_iff]
    simp [hsplit]
  · simp

theorem LocalAddress.fromStr_ne_panic_iff (s : String) :
    LocalAddress.fromStr s ≠ .error .panic ↔ ∀ name ∈ localTypePart (split '.' s), name ∈ typeNames := by
  unfold LocalAddress.fromStr localTypePart
  split
  · rename_i hsplit
    rw [Machine.read_ne_panic_iff, exists_fromStr_iff]
    simp [hsplit]
  · simp

theorem Machine.ShortLocalAddress.fromStr_ne_panic_iff (s : String) :
    ShortLocalAddress.fromStr s ≠ .error .panic ↔ ∀ name ∈ shortTypePart (split '.' s), name ∈ typeNames := by
  unfold ShortLocalAddress.fromStr shortTypePart
  split
  · rename_i hsplit
    rw [Machine.read_ne_panic_iff, exists_fromStr_iff]
    simp [hsplit]
  · rename_i hsplit
    rw [Machine.read_ne_panic_iff, exists_fromStr_iff]
    simp [hsplit]
  · simp

/-- a `print` of one argument fails to be made only where that panics as an address -/
theorem Machine.PrintFmt.fromArgs_single_iff (L : Libraries) (s : String) {args : List String} {matched : Matches}
    (h : L.getopts [] args = .ok matched) (hfree : matched.free = [s]) :
    PrintFmt.fromArgs L args ≠ .error .panic ↔ Address.fromStr s ≠ .error .panic := by
  refine (PrintFmt.total_iff L args).trans ?_
  rw [addressTotal_iff]
  constructor
  · intro htotal
    obtain ⟨first, hfirst, haddress, _⟩ := htotal matched h
    rw [hfree] at hfirst
    obtain rfl := Option.some.inj hfirst
    exact haddress
  · intro haddress matched' h'
    obtain rfl := Except.ok.inj (h.symm.trans h')
    refine ⟨s, by rw [hfree]; rfl, haddress, Or.inr fun i _ text htext => ?_⟩
    -- there is no argument for a placeholder
    rw [hfree, List.getElem?_eq_none (by simp)] at htext
    exact absurd htext (by simp)

/-- each reader returns on a text, and a `print` of it is made, exactly under its condition -/
structure Returning (s : String) : Prop where
  varType : VarType.read s ≠ .error .panic ↔ s ∈ typeNames
  short : ShortLocalAddress.fromStr s ≠ .error .panic ↔ ∀ name ∈ shortTypePart (split '.' s), name ∈ typeNames
  localAddress : LocalAddress.fromStr s ≠ .error .panic ↔ ∀ name ∈ localTypePart (split '.' s), name ∈ typeNames
  address : Address.fromStr s ≠ .error .panic ↔ ∀ name ∈ typePart (split '.' s), name ∈ typeNames
  print : ∀ (L : Libraries) args matched, L.getopts [] args = .ok matched → matched.free = [s] →
    (PrintFmt.fromArgs L args ≠ .error .panic ↔ ∀ name ∈ typePart (split '.' s), name ∈ typeNames)

/-- **Totality of reading.** A type is read without a panic exactly from its names; an address, of each of the three
kinds, exactly from a text that has another number of parts or the name of a type in its place; and so is the argument
of a `print`. -/
theorem reading_returns_iff (s : String) : Returning s where
  varType := VarType.read_ne_panic_iff s
  short := ShortLocalAddress.fromStr_ne_panic_iff s
  localAddress := LocalAddress.fromStr_ne_panic_iff s
  address := Address.fromStr_ne_panic_iff s
  print L _ _ h hfree :=
    (PrintFmt.fromArgs_single_iff L s h hfree).trans (Address.fromStr_ne_panic_iff s)

/-- a version number has the four parts of an address -/
theorem reading_panics :
    ¬ ∀ s, VarType.read s ≠ .error .panic ∧ ShortLocalAddress.fromStr s ≠ .error .panic ∧
      LocalAddress.fromStr s ≠ .error .panic ∧ Address.fromStr s ≠ .error .panic := by
  intro h
  exact (h "1.2.3.4").2.2.2 (by decide)

end BigWorlds
