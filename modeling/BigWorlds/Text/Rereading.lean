/-
Values as text and back (`var.rs` `Var::to_string`, `Var::from_str`, `list_from_str`).

A scalar is printed as it is read. A vector is printed with the names of its coordinates and a list as the `Debug` form
of its elements, while the reader expects bare numbers, or elements, between commas.

- `var_rereads`: a value of a type that can be read is read back from its text exactly if it is a scalar; a vector or a
  list of anything but strings gives an error, a list of strings another list.

Witness: `vector_lost`: the text of a vector is no vector.

Outside of the source: the texts of floats and the characters that `Debug` does not print (`Formats`). Its laws are that
a float is read back from its own text, and that no text with a bracket or a colon in it is one of a float.
-/
import BigWorlds.Text.Value

namespace BigWorlds

open BigWorlds.Core (split)

/-! ## Texts of values -/

structure Formats where
  /-- `{}` of a float -/
  float : UInt32 → String
  /-- `{:?}` of a float -/
  debugFloat : UInt32 → String
  /-- `str::parse::<f32>` -/
  parseFloat : String → Option UInt32
  /-- not printable, or a mark on the character before it -/
  unprintable : Char → Bool
  inverse : ∀ bits, parseFloat (float bits) = some bits
  grammar : ∀ s bits, parseFloat s = some bits → '[' ∉ s.toList ∧ ':' ∉ s.toList

/-- `char::escape_debug`, as `Debug` of a text calls it -/
def escapeDebug (unprintable : Char → Bool) (c : Char) : List Char :=
  match c with
  | '\x00' => ['\\', '0']
  | '\t' => ['\\', 't']
  | '\r' => ['\\', 'r']
  | '\n' => ['\\', 'n']
  | '"' => ['\\', '"']
  | '\\' => ['\\', '\\']
  | c => if unprintable c then ['\\', 'u', '\x7b'] ++ Nat.toDigits 16 c.toNat ++ ['\x7d'] else [c]

/-- `{:?}` of a text -/
def debugStr (F : Formats) (s : String) : String :=
  "\"" ++ String.ofList (s.toList.flatMap (escapeDebug F.unprintable)) ++ "\""

/-- `{:?}` of a vector of values that have been printed -/
def bracketed (texts : List String) : String := "[" ++ ", ".intercalate texts ++ "]"

/-- `{:?}` of a map of entries that have been printed -/
def braced (texts : List String) : String := "\x7b" ++ ", ".intercalate texts ++ "\x7d"

mutual

/-- `{:?}`, as it is derived -/
def Var.debug (F : Formats) : Var → String
  | .string v => "String(" ++ debugStr F v ++ ")"
  | .int v => "Int(" ++ v.toInt.repr ++ ")"
  | .float v => "Float(" ++ F.debugFloat v ++ ")"
  | .bool v => "Bool(" ++ (if v then "true" else "false") ++ ")"
  | .byte v => "Byte(" ++ Nat.repr v.toNat ++ ")"
  | .vec2 x y => "Vec2(" ++ F.debugFloat x ++ ", " ++ F.debugFloat y ++ ")"
  | .vec3 x y z => "Vec3(" ++ F.debugFloat x ++ ", " ++ F.debugFloat y ++ ", " ++ F.debugFloat z ++ ")"
  | .list l => "List(" ++ bracketed (debugAll F l) ++ ")"
  | .grid g => "Grid(" ++ bracketed (debugRows F g) ++ ")"
  | .map m => "Map(" ++ braced (debugEntries F m) ++ ")"

def debugAll (F : Formats) : List Var → List String
  | [] => []
  | v :: vs => v.debug F :: debugAll F vs

def debugRows (F : Formats) : List (List Var) → List String
  | [] => []
  | row :: rows => bracketed (debugAll F row) :: debugRows F rows

def debugEntries (F : Formats) : List (String × Var) → List String
  | [] => []
  | (key, v) :: entries => (debugStr F key ++ ": " ++ v.debug F) :: debugEntries F entries

end

/-- what `Var::to_string` makes of floats and nested values; it prints the others itself -/
def Formats.format (F : Formats) : Var → String
  | .float v => F.float v
  | .vec2 x y => "x: " ++ F.float x ++ ", y: " ++ F.float y
  | .vec3 x y z => "x: " ++ F.float x ++ ", y: " ++ F.float y ++ ", z: " ++ F.float z
  | .list l => bracketed (debugAll F l)
  | .grid g => bracketed (debugRows F g)
  | .map m => braced (debugEntries F m)
  | v => v.debug F

/-- what the value is read as from its own text, as a value of its own type -/
def Var.reread (F : Formats) (v : Var) : Except ValueFailure Var :=
  Var.fromStrTyped F.parseFloat (v.toString F.format) v.getType

/-- the values of types that `Var::from_str` reads: scalars, vectors, and lists of one kind of scalar. A list without
elements has a type of its own, which is not read -/
def Var.Supported : Var → Prop
  | .list l => l ≠ [] ∧ ∃ t ∈ [VarType.string, .int, .float, .bool, .byte], ∀ v ∈ l, v.getType = t
  | .grid _ | .map _ => False
  | _ => True

def Var.isScalar : Var → Bool
  | .string _ | .int _ | .float _ | .bool _ | .byte _ => true
  | _ => false

/-! ## Numbers -/

theorem digitsValue_not_digit {c : Char} {cs : List Char} (h : c.isDigit = false) : digitsValue (c :: cs) = none := by
  rw [digitsValue, if_neg (List.cons_ne_nil c cs), if_neg (by simp [h])]

theorem parseU8_repr (x : UInt8) : parseU8 (Nat.repr x.toNat) = some x := by
  unfold parseU8
  rw [Nat.toList_repr, withoutPlus_digits, digitsValue_toDigits, Option.bind_some, if_pos x.toNat_lt]
  exact congrArg some UInt8.ofNat_toNat

theorem parseBool_toString (b : Bool) : parseBool (if b then "true" else "false") = some b := by
  cases b <;> rfl

theorem parseI32_repr (x : Int32) : parseI32 x.toInt.repr = some x := by
  have hlower := x.le_toInt
  have hupper := x.toInt_lt
  have hback := Int32.ofInt_toInt x
  unfold parseI32
  cases hx : x.toInt with
  | ofNat n =>
    have hn : n < 2 ^ 31 := by
      rw [hx] at hupper
      exact Int.ofNat_lt.mp hupper
    have htext : (Int.repr (.ofNat n)).toList = Nat.toDigits 10 n := Nat.toList_repr
    have hminus : ∀ digits, Nat.toDigits 10 n ≠ '-' :: digits := by
      intro digits h
      have hdigit : ('-').isDigit = true :=
        Nat.isDigit_of_mem_toDigits (by omega) (by omega) (h ▸ List.mem_cons_self)
      exact absurd hdigit (by decide)
    rw [htext]
    split
    · rename_i digits h
      exact absurd h (hminus digits)
    · rw [withoutPlus_digits, digitsValue_toDigits, Option.bind_some, if_pos hn]
      rw [hx] at hback
      exact congrArg some hback
  | negSucc n =>
    have hn : n + 1 ≤ 2 ^ 31 := by
      rw [hx] at hlower
      omega
    have htext : (Int.repr (.negSucc n)).toList = '-' :: Nat.toDigits 10 (n + 1) := by
      rw [show Int.repr (.negSucc n) = "-" ++ Nat.repr (n + 1) from rfl, String.toList_append, Nat.toList_repr]
      rfl
    rw [htext]
    change (digitsValue (Nat.toDigits 10 (n + 1))).bind
      (fun n => if n ≤ 2 ^ 31 then some (Int32.ofInt (-(n : Int))) else none) = some x
    rw [digitsValue_toDigits, Option.bind_some, if_pos hn]
    rw [hx] at hback
    exact congrArg some hback

/-- what no number and no truth value starts with -/
theorem parse_bracket (F : Formats) (cs : List Char) :
    parseI32 (String.ofList ('[' :: cs)) = none ∧ parseU8 (String.ofList ('[' :: cs)) = none ∧
      parseBool (String.ofList ('[' :: cs)) = none ∧ F.parseFloat (String.ofList ('[' :: cs)) = none := by
  have hdigits : digitsValue ('[' :: cs) = none := digitsValue_not_digit rfl
  refine ⟨?_, ?_, ?_, ?_⟩
  · unfold parseI32
    rw [String.toList_ofList]
    exact Option.bind_eq_none_iff.mpr fun n h => absurd (hdigits.symm.trans h) (by simp)
  · unfold parseU8
    rw [String.toList_ofList]
    exact Option.bind_eq_none_iff.mpr fun n h => absurd (hdigits.symm.trans h) (by simp)
  · unfold parseBool
    rw [if_neg, if_neg]
    · exact fun h => absurd (congrArg String.toList h) (by rw [String.toList_ofList]; simp)
    · exact fun h => absurd (congrArg String.toList h) (by rw [String.toList_ofList]; simp)
  · cases hparse : F.parseFloat (String.ofList ('[' :: cs)) with
    | none => rfl
    | some bits =>
      have hbracket := (F.grammar _ bits hparse).1
      rw [String.toList_ofList] at hbracket
      exact absurd List.mem_cons_self hbracket

/-! ## Values -/

variable {F : Formats} {v : Var}

theorem reread_scalar (h : v.isScalar = true) : v.reread F = .ok v := by
  cases v with
  | string v => rfl
  | int v =>
    show (do return Var.int (← valid (parseI32 v.toInt.repr))) = _
    rw [parseI32_repr]
    rfl
  | float v =>
    show (do return Var.float (← valid (F.parseFloat (F.float v)))) = _
    rw [F.inverse]
    rfl
  | bool v =>
    show (do return Var.bool (← valid (parseBool (if v then "true" else "false")))) = _
    rw [parseBool_toString]
    rfl
  | byte v =>
    show (do return Var.byte (← valid (parseU8 (Nat.repr v.toNat)))) = _
    rw [parseU8_repr]
    rfl
  | _ => exact absurd h Bool.false_ne_true

/-- the text of a vector starts with the name of its first coordinate, which is not one of a number -/
theorem split_vector (rest : String) : ∃ first others, split ',' ("x: " ++ rest) = first :: others ∧
    F.parseFloat first = none := by
  have htext : ("x: " ++ rest).toList = ['x', ':', ' '] ++ rest.toList := String.toList_append
  obtain ⟨cs, others, hsplit⟩ := Core.exists_split_front (show ',' ∉ ['x', ':', ' '] by decide) htext
  refine ⟨_, others, hsplit, ?_⟩
  cases hparse : F.parseFloat (String.ofList (['x', ':', ' '] ++ cs)) with
  | none => rfl
  | some bits =>
    have hcolon := (F.grammar _ bits hparse).2
    rw [String.toList_ofList] at hcolon
    exact absurd (by simp) hcolon

theorem reread_vec2 (x y : UInt32) : (Var.vec2 x y).reread F = .error .invalid := by
  obtain ⟨first, others, hsplit, hparse⟩ := @split_vector F (F.float x ++ ", y: " ++ F.float y)
  have htext : (Var.vec2 x y).toString F.format = "x: " ++ (F.float x ++ ", y: " ++ F.float y) := by
    show "x: " ++ F.float x ++ ", y: " ++ F.float y = _
    simp only [String.append_assoc]
  show Var.fromStrTyped F.parseFloat ((Var.vec2 x y).toString F.format) .vec2 = _
  rw [htext, Var.fromStrTyped, hsplit]
  split
  · rename_i first' second h
    obtain ⟨rfl, _⟩ := List.cons.inj h
    rw [hparse]
    rfl
  · rfl

theorem reread_vec3 (x y z : UInt32) : (Var.vec3 x y z).reread F = .error .invalid := by
  obtain ⟨first, others, hsplit, hparse⟩ :=
    @split_vector F (F.float x ++ ", y: " ++ F.float y ++ ", z: " ++ F.float z)
  have htext : (Var.vec3 x y z).toString F.format =
      "x: " ++ (F.float x ++ ", y: " ++ F.float y ++ ", z: " ++ F.float z) := by
    show "x: " ++ F.float x ++ ", y: " ++ F.float y ++ ", z: " ++ F.float z = _
    simp only [String.append_assoc]
  show Var.fromStrTyped F.parseFloat ((Var.vec3 x y z).toString F.format) .vec3 = _
  rw [htext, Var.fromStrTyped, hsplit]
  split
  · rename_i first' second third h
    obtain ⟨rfl, _⟩ := List.cons.inj h
    rw [hparse]
    rfl
  · rfl

/-! ## Lists -/

/-- the text of a list starts with a bracket -/
theorem split_list (l : List Var) : ∃ cs others,
    split ',' ((Var.list l).toString F.format) = String.ofList ('[' :: cs) :: others := by
  have htext : ((Var.list l).toString F.format).toList =
      ['['] ++ (", ".intercalate (debugAll F l) ++ "]").toList := by
    show ("[" ++ ", ".intercalate (debugAll F l) ++ "]").toList = _
    simp only [String.append_assoc, String.toList_append]
    rfl
  exact Core.exists_split_front (by decide) htext

/-- a list of anything but strings is not read from its text -/
theorem reread_list {l : List Var} {t : VarType} (ht : (Var.list l).getType = t)
    (hmem : t ∈ [VarType.intList, .floatList, .boolList, .byteList]) : (Var.list l).reread F = .error .invalid := by
  obtain ⟨cs, others, hsplit⟩ := @split_list F l
  obtain ⟨hint, hbyte, hbool, hfloat⟩ := parse_bracket F cs
  unfold Var.reread
  rw [ht, fromStrTyped_list (List.mem_cons_of_mem _ hmem), hsplit, elementsFromStr]
  simp only [List.mem_cons, List.not_mem_nil, or_false] at hmem
  rcases hmem with rfl | rfl | rfl | rfl
  · rw [elementFromStr, hint]
    rfl
  · rw [elementFromStr, hfloat]
    rfl
  · rw [elementFromStr, hbool]
    rfl
  · rw [elementFromStr, hbyte]
    rfl

theorem length_escapeDebug (unprintable : Char → Bool) (c : Char) : 1 ≤ (escapeDebug unprintable c).length := by
  unfold escapeDebug
  split
  · decide
  · decide
  · decide
  · decide
  · decide
  · decide
  · split_ifs
    · simp
    · exact Nat.le_refl 1

/-- the `Debug` form of a text is longer than the text -/
theorem length_debug_string (F : Formats) (s : String) : s.toList.length < ((Var.string s).debug F).toList.length := by
  have hescape : s.toList.length ≤ (s.toList.flatMap (escapeDebug F.unprintable)).length := by
    induction s.toList with
    | nil => exact Nat.le_refl 0
    | cons c cs ih =>
      have hc := length_escapeDebug F.unprintable c
      rw [List.flatMap_cons, List.length_append, List.length_cons]
      omega
  have hquote : "\"".toList.length = 1 := rfl
  show _ < ("String(" ++ ("\"" ++ String.ofList (s.toList.flatMap (escapeDebug F.unprintable)) ++ "\"") ++
    ")").toList.length
  simp only [String.toList_append, List.length_append, String.toList_ofList]
  omega

/-- so the text of a list of strings is longer than the strings with commas between them -/
theorem length_joined (F : Formats) (ss : List String) : (Core.joined ',' ss).toList.length <
    (bracketed (debugAll F (ss.map Var.string))).toList.length := by
  have hall : ([','].intercalate (ss.map String.toList)).length ≤
      ((", ".toList).intercalate ((debugAll F (ss.map Var.string)).map String.toList)).length := by
    induction ss with
    | nil => exact Nat.le_refl 0
    | cons s ss ih =>
      have hs := length_debug_string F s
      cases ss with
      | nil =>
        simp only [List.map_cons, List.map_nil, debugAll, List.intercalate_singleton]
        omega
      | cons s' ss =>
        simp only [List.map_cons, debugAll, List.intercalate_cons_cons, List.length_append] at ih ⊢
        have hsep : [','].length ≤ (", ".toList).length := by decide
        omega
  simp only [Core.joined, bracketed, String.toList_append, List.length_append, String.toList_ofList,
    String.toList_intercalate]
  have hopen : "[".toList.length = 1 := rfl
  omega

theorem elementsFromStr_string (parseFloat : String → Option UInt32) (pieces : List String) :
    elementsFromStr parseFloat .stringList pieces = .ok (pieces.map Var.string) := by
  induction pieces with
  | nil => rfl
  | cons s pieces ih =>
    rw [elementsFromStr, ih]
    rfl

/-- a list of strings is read as the pieces of its text, which are others -/
theorem reread_strings {l : List Var} (ht : (Var.list l).getType = .stringList) :
    ∃ l', l' ≠ l ∧ (Var.list l).reread F = .ok (.list l') := by
  refine ⟨(split ',' ((Var.list l).toString F.format)).map Var.string, ?_, ?_⟩
  · intro hsame
    have htext := Core.joined_split ',' ((Var.list l).toString F.format)
    have hlen := length_joined F (split ',' ((Var.list l).toString F.format))
    rw [htext, hsame] at hlen
    exact absurd hlen (Nat.lt_irrefl _)
  · unfold Var.reread
    rw [ht, fromStrTyped_list List.mem_cons_self, elementsFromStr_string]
    rfl

/-! ## All values -/

structure Reread (F : Formats) (v : Var) : Prop where
  same : v.reread F = .ok v ↔ v.isScalar = true
  other : v.isScalar = false → v.getType ≠ .stringList → v.reread F = .error .invalid
  strings : v.getType = .stringList → ∃ l, Var.list l ≠ v ∧ v.reread F = .ok (.list l)

theorem reread_of_error (hscalar : v.isScalar = false) (htype : v.getType ≠ .stringList)
    (herror : v.reread F = .error .invalid) : Reread F v := by
  refine ⟨?_, fun _ _ => herror, fun h => absurd h htype⟩
  rw [herror, hscalar]
  exact iff_of_false (by rintro ⟨⟩) Bool.false_ne_true

theorem reread_of_scalar (hscalar : v.isScalar = true) (htype : v.getType ≠ .stringList) : Reread F v :=
  ⟨iff_of_true (reread_scalar hscalar) hscalar, fun h => absurd (h.symm.trans hscalar) Bool.false_ne_true,
    fun h => absurd h htype⟩

/-- values of types that are read -/
structure Supported where
  var : Var
  supported : var.Supported

/-- **Texts of values.** A value of a type that can be read is read back from its own text exactly if it is a scalar; a
vector or a list of anything but strings gives an error, a list of strings another list. -/
theorem var_rereads (F : Formats) (v : Supported) : Reread F v.var := by
  obtain ⟨v, hsupported⟩ := v
  cases v with
  | string v => exact reread_of_scalar rfl VarType.noConfusion
  | int v => exact reread_of_scalar rfl VarType.noConfusion
  | float v => exact reread_of_scalar rfl VarType.noConfusion
  | bool v => exact reread_of_scalar rfl VarType.noConfusion
  | byte v => exact reread_of_scalar rfl VarType.noConfusion
  | vec2 x y => exact reread_of_error rfl VarType.noConfusion (reread_vec2 x y)
  | vec3 x y z => exact reread_of_error rfl VarType.noConfusion (reread_vec3 x y z)
  | grid g => exact absurd hsupported id
  | map m => exact absurd hsupported id
  | list l =>
    obtain ⟨hne, t, ht, hall⟩ := hsupported
    obtain ⟨first, rest, rfl⟩ := List.exists_cons_of_ne_nil hne
    have hfirst := hall first List.mem_cons_self
    simp only [List.mem_cons, List.not_mem_nil, or_false] at ht
    -- the type of the list goes by its first element
    rcases ht with rfl | rfl | rfl | rfl | rfl
    · have hlist : (Var.list (first :: rest)).getType = .stringList := by simp only [Var.getType, hfirst]
      obtain ⟨l, hl, hread⟩ := @reread_strings F _ hlist
      have hne' : Var.list l ≠ .list (first :: rest) := fun h => hl (Var.list.inj h)
      refine ⟨?_, fun _ h => absurd hlist h, fun _ => ⟨l, hne', hread⟩⟩
      rw [hread]
      exact iff_of_false (fun h => hne' (Except.ok.inj h)) Bool.false_ne_true
    · have hlist : (Var.list (first :: rest)).getType = .intList := by simp only [Var.getType, hfirst]
      exact reread_of_error rfl (by rw [hlist]; decide) (reread_list hlist (by decide))
    · have hlist : (Var.list (first :: rest)).getType = .floatList := by simp only [Var.getType, hfirst]
      exact reread_of_error rfl (by rw [hlist]; decide) (reread_list hlist (by decide))
    · have hlist : (Var.list (first :: rest)).getType = .boolList := by simp only [Var.getType, hfirst]
      exact reread_of_error rfl (by rw [hlist]; decide) (reread_list hlist (by decide))
    · have hlist : (Var.list (first :: rest)).getType = .byteList := by simp only [Var.getType, hfirst]
      exact reread_of_error rfl (by rw [hlist]; decide) (reread_list hlist (by decide))

/-! ## A vector that is lost -/

theorem parseU32_digits {s : String} {n : UInt32} (h : parseU32 s = some n) {c : Char} (hc : c ∈ s.toList) :
    c = '+' ∨ c.isDigit = true := by
  obtain ⟨m, hm, _⟩ := Option.bind_eq_some_iff.mp h
  have hall : ∀ c ∈ withoutPlus s.toList, c.isDigit = true := by
    unfold digitsValue at hm
    split_ifs at hm with _ hdigits
    exact List.all_eq_true.mp hdigits
  unfold withoutPlus at hall
  split at hall
  · rename_i rest hplus
    rw [hplus] at hc
    rcases List.mem_cons.mp hc with rfl | hc
    · exact .inl rfl
    · exact .inr (hall c hc)
  · exact .inr (hall c hc)

/-- formats that agree with those of the library on zero -/
def zeroFormats : Formats where
  float bits := Nat.repr bits.toNat
  debugFloat bits := Nat.repr bits.toNat ++ ".0"
  parseFloat := parseU32
  unprintable _ := false
  inverse := parseU32_repr
  grammar s bits h := by
    constructor
    · intro hmem
      exact absurd (parseU32_digits h hmem) (by decide)
    · intro hmem
      exact absurd (parseU32_digits h hmem) (by decide)

/-- the text of the zero vector, `x: 0, y: 0`, is no vector -/
theorem vector_lost : ¬ ∀ v : Supported, v.var.reread zeroFormats = .ok v.var := by
  intro h
  have hread : (Var.vec2 0 0).reread zeroFormats = .error .invalid := rfl
  exact absurd (hread.symm.trans (h ⟨.vec2 0 0, trivial⟩)) (by rintro ⟨⟩)

end BigWorlds
