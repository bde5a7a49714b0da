/-
What is kept of a JSON value (`var.rs`, `Var::from_serde`).

An integer is cut to 32 bits, and it panics above the largest signed one of 64. An array for a vector of three always
panics; for a vector of two, what is missing or is not a number is zero, and what is too much is left out.

- `holdsAll_iff`, `holdsEntries_iff`: arrays are kept element by element, objects key by key;
- `fromSerde_holds_iff`: a value is converted and kept exactly if its integers are of 32 bits;
- `converted_iff`: the same where a type is declared.

Witness: `integer_wraps`: an integer of 33 bits, one of 64 and a vector of three.

Outside of the source: how a number is rounded to a float of 32 bits (`asF32`).
-/
import BigWorlds.Text.Json

namespace BigWorlds

open Machine (ShortLocalAddress)

/-! ## Integers -/

/-- the integer that a number is, none for a float -/
def JsonNumber.integer : JsonNumber → Option ℤ
  | .posInt n => some n.toNat
  | .negInt i => some i.toInt
  | .float _ => none

/-- an integer is of 32 bits -/
def JsonNumber.inRange (n : JsonNumber) : Bool := n.integer.all fun z => -2 ^ 31 ≤ z ∧ z < 2 ^ 31

/-- cutting an integer to 32 bits keeps the integers of 32 bits -/
theorem bmod_eq_self_iff (z : ℤ) : z.bmod (2 ^ 32) = z ↔ -2 ^ 31 ≤ z ∧ z < 2 ^ 31 := by
  rw [Int.bmod_eq_iff (by decide), Int.sub_self]
  constructor
  · rintro ⟨h₁, h₂, _⟩
    exact ⟨by omega, by omega⟩
  · rintro ⟨h₁, h₂⟩
    exact ⟨by omega, by omega, Int.dvd_zero _⟩

theorem toInt32_iff {n : JsonNumber} {z : ℤ} (h : n.integer = some z) :
    (∃ i, n.toInt32 = some i ∧ i.toInt = z) ↔ n.inRange = true := by
  have hrange : n.inRange = true ↔ -2 ^ 31 ≤ z ∧ z < 2 ^ 31 := by simp [JsonNumber.inRange, h]
  rw [hrange, ← bmod_eq_self_iff]
  cases n with
  | float bits => exact absurd h (by rintro ⟨⟩)
  | negInt i =>
    obtain rfl := Option.some.inj h
    have hcut : i.toInt32.toInt = i.toInt.bmod (2 ^ 32) := Int64.toInt_toInt32 i
    rw [← hcut]
    exact ⟨fun ⟨_, hi, hz⟩ => Option.some.inj hi ▸ hz, fun hz => ⟨_, rfl, hz⟩⟩
  | posInt n =>
    obtain rfl := Option.some.inj h
    have hcut : (Int32.ofNat n.toNat).toInt = (n.toNat : ℤ).bmod (2 ^ 32) := Int32.toInt_ofNat'
    rw [JsonNumber.toInt32, ← hcut]
    constructor
    · rintro ⟨i, hi, hz⟩
      split_ifs at hi
      exact Option.some.inj hi ▸ hz
    · intro hz
      have hlt := Int32.toInt_lt (Int32.ofNat n.toNat)
      exact ⟨_, if_pos (by omega), hz⟩

/-! ## Values that are kept -/

section
variable (asF32 : JsonNumber → UInt32)

mutual

/-- the variable has the value; null is zero, and a float is rounded -/
def Json.Holds : Json → Var → Prop
  | .null, x => x = .int 0
  | .bool b, x => x = .bool b
  | .number n, x =>
    match n.integer with
    | some z => ∃ i : Int32, x = .int i ∧ i.toInt = z
    | none => x = .float (asF32 n)
  | .string s, x => x = .string s
  | .array l, x => ∃ xs, x = .list xs ∧ Json.HoldsAll l xs
  | .object m, x => ∃ xs, x = .map xs ∧ Json.HoldsEntries m xs

def Json.HoldsAll : List Json → List Var → Prop
  | [], xs => xs = []
  | v :: l, xs => ∃ x rest, xs = x :: rest ∧ Json.Holds v x ∧ Json.HoldsAll l rest

def Json.HoldsEntries : List (String × Json) → List (String × Var) → Prop
  | [], xs => xs = []
  | (k, v) :: m, xs => ∃ x rest, xs = (k, x) :: rest ∧ Json.Holds v x ∧ Json.HoldsEntries m rest

end

/-- the variable has the value of the type that is declared: a vector has the elements of an array of as many numbers -/
def Json.HoldsAs : Option VarType → Json → Var → Prop
  | some .vec2, .array l, x => ∃ a b, l = [.number a, .number b] ∧ x = .vec2 (asF32 a) (asF32 b)
  | some .vec3, .array l, x =>
    ∃ a b c, l = [.number a, .number b, .number c] ∧ x = .vec3 (asF32 a) (asF32 b) (asF32 c)
  | _, v, x => v.Holds asF32 x

/-- the value is converted, and kept -/
def Converted (addr : Option ShortLocalAddress) (v : Json) : Prop :=
  ∃ x, Var.fromSerde asF32 addr v = some x ∧ v.HoldsAs asF32 (addr.map ShortLocalAddress.varType) x

end

mutual

/-- all integers of the value are of 32 bits -/
def Json.inRange : Json → Bool
  | .number n => n.inRange
  | .array l => Json.allInRange l
  | .object m => Json.entriesInRange m
  | _ => true

def Json.allInRange : List Json → Bool
  | [] => true
  | v :: l => v.inRange && Json.allInRange l

def Json.entriesInRange : List (String × Json) → Bool
  | [] => true
  | (_, v) :: m => v.inRange && Json.entriesInRange m

end

/-- two numbers -/
def Json.isPair : List Json → Bool
  | [.number _, .number _] => true
  | _ => false

/-- an array for a vector is one of two numbers; all integers of another value are of 32 bits -/
def Json.convertible : Option VarType → Json → Bool
  | some .vec2, .array l => Json.isPair l
  | some .vec3, .array _ => false
  | _, v => v.inRange

variable {asF32 : JsonNumber → UInt32}

/-- an array is kept element by element -/
theorem holdsAll_iff (l : List Json) (xs : List Var) :
    Json.HoldsAll asF32 l xs ↔ List.Forall₂ (fun v x => v.Holds asF32 x) l xs := by
  induction l generalizing xs with
  | nil => rw [Json.HoldsAll, List.forall₂_nil_left_iff]
  | cons v l ih =>
    rw [Json.HoldsAll, List.forall₂_cons_left_iff]
    constructor
    · rintro ⟨x, rest, rfl, hv, hrest⟩
      exact ⟨x, rest, hv, (ih rest).mp hrest, rfl⟩
    · rintro ⟨x, rest, hv, hrest, rfl⟩
      exact ⟨x, rest, rfl, hv, (ih rest).mpr hrest⟩

/-- an object is kept key by key -/
theorem holdsEntries_iff (m : List (String × Json)) (xs : List (String × Var)) :
    Json.HoldsEntries asF32 m xs ↔ List.Forall₂ (fun e x => x.1 = e.1 ∧ e.2.Holds asF32 x.2) m xs := by
  induction m generalizing xs with
  | nil => rw [Json.HoldsEntries, List.forall₂_nil_left_iff]
  | cons e m ih =>
    rw [Json.HoldsEntries, List.forall₂_cons_left_iff]
    constructor
    · rintro ⟨x, rest, rfl, hv, hrest⟩
      exact ⟨(e.1, x), rest, ⟨rfl, hv⟩, (ih rest).mp hrest, rfl⟩
    · rintro ⟨⟨k, x⟩, rest, ⟨hk, hv⟩, hrest, rfl⟩
      obtain rfl : k = e.1 := hk
      exact ⟨x, rest, rfl, hv, (ih rest).mpr hrest⟩

/-! ## When a value is kept -/

theorem number_holds_iff (n : JsonNumber) :
    (∃ x, Var.fromSerde asF32 none (.number n) = some x ∧ Json.Holds asF32 (.number n) x) ↔ n.inRange = true := by
  cases hz : n.integer with
  | none =>
    cases n with
    | float bits => exact iff_of_true ⟨_, rfl, rfl⟩ rfl
    | posInt n => exact absurd hz (by rintro ⟨⟩)
    | negInt i => exact absurd hz (by rintro ⟨⟩)
  | some z =>
    have hcut : Var.fromSerde asF32 none (.number n) = n.toInt32.map .int := by
      cases n with
      | float bits => exact absurd hz (by rintro ⟨⟩)
      | posInt n => rfl
      | negInt i => rfl
    rw [← toInt32_iff hz, hcut]
    simp only [Json.Holds, hz]
    constructor
    · rintro ⟨x, hx, i, rfl, hi⟩
      obtain ⟨i', hi', heq⟩ := Option.map_eq_some_iff.mp hx
      exact ⟨i', hi', Var.int.inj heq ▸ hi⟩
    · rintro ⟨i, hi, hvalue⟩
      exact ⟨.int i, by rw [hi, Option.map_some], i, rfl, hvalue⟩

mutual

/-- **Values.** A value is converted and kept exactly if its integers are of 32 bits. -/
theorem fromSerde_holds_iff : (v : Json) →
    ((∃ x, Var.fromSerde asF32 none v = some x ∧ v.Holds asF32 x) ↔ v.inRange = true)
  | .null => iff_of_true ⟨_, rfl, rfl⟩ rfl
  | .bool _ => iff_of_true ⟨_, rfl, rfl⟩ rfl
  | .number n => number_holds_iff n
  | .string _ => iff_of_true ⟨_, rfl, rfl⟩ rfl
  | .array l => by
    rw [Json.inRange, ← fromSerdeAll_holds_iff l]
    constructor
    · rintro ⟨x, hx, xs, rfl, hxs⟩
      obtain ⟨xs', hxs', heq⟩ := Option.map_eq_some_iff.mp hx
      exact ⟨xs', hxs', Var.list.inj heq ▸ hxs⟩
    · rintro ⟨xs, hxs, hholds⟩
      exact ⟨.list xs, Option.map_eq_some_iff.mpr ⟨xs, hxs, rfl⟩, xs, rfl, hholds⟩
  | .object m => by
    rw [Json.inRange, ← fromSerdeEntries_holds_iff m]
    constructor
    · rintro ⟨x, hx, xs, rfl, hxs⟩
      obtain ⟨xs', hxs', heq⟩ := Option.map_eq_some_iff.mp hx
      exact ⟨xs', hxs', Var.map.inj heq ▸ hxs⟩
    · rintro ⟨xs, hxs, hholds⟩
      exact ⟨.map xs, Option.map_eq_some_iff.mpr ⟨xs, hxs, rfl⟩, xs, rfl, hholds⟩

theorem fromSerdeAll_holds_iff : (l : List Json) →
    ((∃ xs, Var.fromSerdeAll asF32 l = some xs ∧ Json.HoldsAll asF32 l xs) ↔ Json.allInRange l = true)
  | [] => iff_of_true ⟨_, rfl, rfl⟩ rfl
  | v :: l => by
    rw [Json.allInRange, Bool.and_eq_true, ← fromSerde_holds_iff v, ← fromSerdeAll_holds_iff l, Var.fromSerdeAll]
    constructor
    · rintro ⟨xs, hxs, x, rest, rfl, hx, hrest⟩
      split at hxs
      · rename_i hv hl
        obtain ⟨rfl, rfl⟩ := List.cons.inj (Option.some.inj hxs)
        exact ⟨⟨_, hv, hx⟩, _, hl, hrest⟩
      · exact absurd hxs (by rintro ⟨⟩)
    · rintro ⟨⟨x, hv, hx⟩, rest, hl, hrest⟩
      exact ⟨x :: rest, by rw [hv, hl], x, rest, rfl, hx, hrest⟩

theorem fromSerdeEntries_holds_iff : (m : List (String × Json)) →
    ((∃ xs, Var.fromSerdeEntries asF32 m = some xs ∧ Json.HoldsEntries asF32 m xs) ↔ Json.entriesInRange m = true)
  | [] => iff_of_true ⟨_, rfl, rfl⟩ rfl
  | (k, v) :: m => by
    rw [Json.entriesInRange, Bool.and_eq_true, ← fromSerde_holds_iff v, ← fromSerdeEntries_holds_iff m,
      Var.fromSerdeEntries]
    constructor
    · rintro ⟨xs, hxs, x, rest, rfl, hx, hrest⟩
      split at hxs
      · rename_i hv hm
        obtain ⟨heq, rfl⟩ := List.cons.inj (Option.some.inj hxs)
        obtain ⟨_, rfl⟩ := Prod.mk.inj heq
        exact ⟨⟨_, hv, hx⟩, _, hm, hrest⟩
      · exact absurd hxs (by rintro ⟨⟩)
    · rintro ⟨⟨x, hv, hx⟩, rest, hm, hrest⟩
      exact ⟨(k, x) :: rest, by rw [hv, hm], x, rest, rfl, hx, hrest⟩

end

/-! ## Where a type is declared -/

theorem isPair_iff (l : List Json) : Json.isPair l = true ↔ ∃ a b, l = [.number a, .number b] := by
  constructor
  · intro h
    unfold Json.isPair at h
    split at h
    · exact ⟨_, _, rfl⟩
    · exact absurd h Bool.false_ne_true
  · rintro ⟨a, b, rfl⟩
    rfl

theorem vec2_converted_iff {addr : ShortLocalAddress} (h : addr.varType = .vec2) (l : List Json) :
    Converted asF32 (some addr) (.array l) ↔ Json.isPair l = true := by
  have hcut : Var.fromSerde asF32 (some addr) (.array l) =
      some (.vec2 (coordinate asF32 l 0) (coordinate asF32 l 1)) := by
    rw [fromSerde_some, h]
  unfold Converted
  rw [hcut, Option.map_some, h, isPair_iff]
  constructor
  · rintro ⟨_, _, a, b, hl, _⟩
    exact ⟨a, b, hl⟩
  · rintro ⟨a, b, rfl⟩
    exact ⟨_, rfl, a, b, rfl, rfl⟩

/-- an array for a vector of three is not converted -/
theorem not_vec3_converted {addr : ShortLocalAddress} (h : addr.varType = .vec3) (l : List Json) :
    ¬ Converted asF32 (some addr) (.array l) := by
  rintro ⟨x, hx, _⟩
  rw [fromSerde_some, h] at hx
  cases hx

/-- **Conversion of JSON.** A value is converted and kept exactly if its integers are of 32 bits, and an array for a
vector is one of two numbers. -/
theorem converted_iff (asF32 : JsonNumber → UInt32) (addr : Option ShortLocalAddress) (v : Json) :
    Converted asF32 addr v ↔ v.convertible (addr.map ShortLocalAddress.varType) = true := by
  cases addr with
  | none => exact fromSerde_holds_iff v
  | some addr =>
    rw [Option.map_some]
    by_cases hvector : (addr.varType = .vec2 ∨ addr.varType = .vec3) ∧ ∃ l, v = .array l
    · obtain ⟨htype, l, rfl⟩ := hvector
      rcases htype with htype | htype
      · rw [vec2_converted_iff htype, htype]
        rfl
      · rw [htype]
        exact iff_of_false (not_vec3_converted htype l) Bool.false_ne_true
    · -- the declared type does not count
      have hsame : Var.fromSerde asF32 (some addr) v = Var.fromSerde asF32 none v ∧
          (∀ x, v.HoldsAs asF32 (some addr.varType) x = v.Holds asF32 x) ∧
          v.convertible (some addr.varType) = v.inRange := by
        rw [fromSerde_some]
        generalize addr.varType = t at hvector
        cases v with
        | array l =>
          have hne : ¬ (t = .vec2 ∨ t = .vec3) := fun h => hvector ⟨h, l, rfl⟩
          cases t with
          | vec2 => exact absurd (Or.inl rfl) hne
          | vec3 => exact absurd (Or.inr rfl) hne
          | _ => exact ⟨rfl, fun _ => rfl, rfl⟩
        | _ => cases t <;> exact ⟨rfl, fun _ => rfl, rfl⟩
      obtain ⟨hconvert, hholds, hconvertible⟩ := hsame
      rw [hconvertible, ← @fromSerde_holds_iff asF32]
      unfold Converted
      rw [hconvert, Option.map_some]
      simp only [hholds]

/-! ## Values that are not kept -/

/-- an address for a vector of three -/
def position : ShortLocalAddress := ⟨none, .vec3, "position"⟩

def oneTwoThree : Json := .array [.number (.posInt 1), .number (.posInt 2), .number (.posInt 3)]

/-- 2³¹ becomes the smallest integer, 2⁶³ panics, and so does an array for a vector of three -/
theorem integer_wraps : (¬ ∀ asF32 addr v, Converted asF32 addr v) ∧
    Var.fromSerde (fun _ => 0) none (.number (.posInt 2147483648)) = some (.int Int32.minValue) ∧
    Var.fromSerde (fun _ => 0) none (.number (.posInt 9223372036854775808)) = none ∧
    Var.fromSerde (fun _ => 0) (some position) oneTwoThree = none := by
  have hwide : (9223372036854775808 : UInt64).toNat = 9223372036854775808 := rfl
  refine ⟨?_, ?_, ?_, rfl⟩
  · intro h
    exact not_vec3_converted rfl _ (h (fun _ => 0) (some position) oneTwoThree)
  · simp [Var.fromSerde, JsonNumber.toInt32]
  · simp only [Var.fromSerde, JsonNumber.toInt32, hwide]
    simp

end BigWorlds
