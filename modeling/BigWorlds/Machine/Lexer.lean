/-
What a script says, line by line and without indices, and that the parser reads exactly this.

A line that is not ASCII is read as far as nothing that is looked for lasts until its end; then as many bytes of it are
skipped as characters have been read, and what follows is split into arguments.

- `lexLine`: what a line says, none if it is not read;
- `parseLine_toOption`, `parseScript_toOption`: the parser returns what a line, or a script, says, and no error or panic
  of it is left out.
-/
import BigWorlds.Machine.Parser

namespace BigWorlds.Machine

open BigWorlds.Core (utf8Length sliceFrom sliceTo)

variable (L : Libraries)

/-! ## What a line says -/

/-- a line in which characters and bytes are counted alike -/
def Ascii (cs : List Char) : Prop := utf8Length cs = cs.length

instance (cs : List Char) : Decidable (Ascii cs) := inferInstanceAs (Decidable (utf8Length cs = cs.length))

/-- a place in a line: what is left to read, or none where nothing is -/
abbrev Place := Option (List Char)

/-- a value ends at a blank, at a comment, and at an equals sign if it is asked to -/
def endsValue (stopOnEquals : Bool) (c : Char) : Bool := c = ' ' ∨ c = '#' ∨ stopOnEquals ∧ c = '='

/-- the rest of a value, without its backslashes, and the place after it; only an ASCII line may end with a value -/
def restOfValue (ascii stopOnEquals : Bool) : List Char → Option (List Char × Place)
  | [] => if ascii then some ([], none) else none
  | c :: rest =>
    if endsValue stopOnEquals c then some ([], if c = '#' then none else some (c :: rest))
    else (restOfValue ascii stopOnEquals rest).map fun r => (if c = '\\' then r.1 else c :: r.1, r.2)

/-- the value that is next, and the place after it; a value does not start with a quote -/
def lexValue (ascii stopOnEquals : Bool) : List Char → Option (List Char × Place)
  | [] => if ascii then some ([], none) else none
  | c :: rest =>
    if c = ' ' then lexValue ascii stopOnEquals rest
    else if c = '#' then some ([], none)
    else if c = '"' then none
    else (restOfValue ascii stopOnEquals rest).map fun r => (if c = '\\' then r.1 else c :: r.1, r.2)

/-- a tag, if the line starts with one, and the place after it -/
def lexTag (ascii : Bool) : List Char → Option (List Char × Place)
  | [] => some ([], some [])
  | c :: rest =>
    if c = '@' then lexValue ascii false rest
    else if c = ' ' then lexTag ascii rest
    else some ([], some (c :: rest))

/-- what follows an equals sign, if one is next -/
def lexEquals (ascii : Bool) : List Char → Option Place
  | [] => if ascii then some none else none
  | c :: rest => if c = ' ' then lexEquals ascii rest else some (if c = '=' then some rest else none)

/-- the output and the name, none of which is empty, and the place where the arguments start -/
def lexNames (ascii : Bool) : Place → Option (Option (List Char) × Option (List Char) × Place)
  | none => some (none, none, none)
  | some rest => do
    let (value, place) ← lexValue ascii true rest
    if value = [] then return (none, none, place)
    else
      match place with
      | none => return (none, some value, none)
      | some after =>
        match ← lexEquals ascii after with
        | none => return (none, some value, some after)
        | some rest =>
          let (name, place) ← lexValue ascii false rest
          if name = [] then return (some value, none, some rest) else return (some value, some name, place)

/-- the arguments from a place on; as many bytes are skipped as there are characters before it -/
def lexArguments (cs : List Char) : Place → Option (List String)
  | none => L.shlex ""
  | some rest => do L.shlex (String.ofList (← sliceFrom cs (cs.length - rest.length)))

/-- what a line says, with its tag -/
structure Lexed where
  tag : Option String
  type_ : InstructionType
deriving DecidableEq, Repr

/-- a command after its tag -/
def lexUntagged (cs : List Char) (tag : Option String) (place : Place) : Option Lexed := do
  let (output, name, place) ← lexNames (Ascii cs) place
  let arguments ← lexArguments L cs place
  if tag = none ∧ output = none ∧ name = none then return ⟨tag, .none_⟩
  else return ⟨tag, .command ⟨name.map String.ofList, some arguments, output.map String.ofList⟩⟩

def lexCommand (cs : List Char) : Option Lexed := do
  let (tag, place) ← lexTag (Ascii cs) cs
  lexUntagged L cs (if tag = [] then none else some (String.ofList tag)) place

/-- the rest of a directive's name, and the place after it -/
def restOfName (ascii : Bool) : List Char → Option (List Char × Place)
  | [] => if ascii then some ([], none) else none
  | c :: rest =>
    if c = ' ' then some ([], some (c :: rest)) else (restOfName ascii rest).map fun r => (c :: r.1, r.2)

/-- a directive's name, which there is, and the place after it -/
def lexName (ascii : Bool) : List Char → Option (List Char × Place)
  | [] => none
  | c :: rest => if c = ' ' then lexName ascii rest else (restOfName ascii rest).map fun r => (c :: r.1, r.2)

/-- a directive, from the character after its symbol on -/
def lexDirective (cs : List Char) : Option Lexed := do
  let (name, place) ← lexName (Ascii cs) cs.tail
  let arguments ← lexArguments L cs place
  return ⟨none, .directive ⟨some (String.ofList name), some arguments⟩⟩

/-- what a line says: nothing, a directive or a command; none if it is not read -/
def lexLine (line : List Char) : Option Lexed :=
  if trim line = [] ∨ (trim line).head? = some '#' then some ⟨none, .none_⟩
  else if (trim line).head? = some '!' then lexDirective L (trim line)
  else lexCommand L (trim line)

/-- the lines that are read, with their numbers: those that end with a backslash are joined with the next one, comments
are left out, and the others are split at semicolons. With the backslash goes the last byte of the line, which is none
if there is no character of one byte. -/
def logicalLines : List (List Char) → (n : ℕ) → (multiline : Option (List Char × ℕ)) → Option (List (ℕ × List Char))
  | [], _, _ => some []
  | l :: ls, n, multiline =>
    let line := (multiline.map Prod.fst).getD [] ++ trim l
    let number := (multiline.map Prod.snd).getD n
    if (trimEnd line).getLast? = some '\\' then
      if line.getLast?.map Char.utf8Size = some 1 then logicalLines ls (n + 1) (some (line.dropLast, number)) else none
    else if line.head? = some '#' then logicalLines ls (n + 1) none
    else (logicalLines ls (n + 1) none).map fun rest => (splitLines line).map (number, ·) ++ rest

/-- the instruction that a line is, at its location -/
def Lexed.at (location : LocationInfo) (l : Lexed) : Instruction := ⟨{ location with tag := l.tag }, l.type_⟩

/-- what the line of a number says -/
def lexNumbered (location : LocationInfo) (line : ℕ × List Char) : Option Instruction :=
  (lexLine L line.2).map (Lexed.at { location with sourceLine := some line.1 })

/-- what a script says; none if one of its lines is not read -/
def lexScript (text : String) (location : LocationInfo) : Option (List Instruction) := do
  let lines ← logicalLines (lines text.toList) 1 none
  lines.mapM (lexNumbered L location)

/-! ## The parser and what a line says -/

section
variable {α β : Type}

theorem toOption_bind (x : Except Failure α) (f : α → Except Failure β) :
    (x >>= f).toOption = x.toOption.bind fun a => (f a).toOption := by
  cases x <;> rfl

theorem toOption_unwrap (o : Option α) : (unwrap o).toOption = o := by
  cases o <;> rfl

theorem toOption_okOr (o : Option α) (e : Failure) : (okOr o e).toOption = o := by
  cases o <;> rfl

end

/-- the index of a place -/
def Place.index (cs : List Char) : Place → ℕ
  | none => utf8Length cs
  | some rest => cs.length - rest.length

/-- a place in a line -/
def Place.In (cs : List Char) (place : Place) : Prop := ∀ rest, place = some rest → rest <:+ cs

theorem Place.in_none (cs : List Char) : Place.In cs none := fun _ h => absurd h (by simp)

theorem Place.in_some {cs rest : List Char} (h : rest <:+ cs) : Place.In cs (some rest) := by
  intro rest' heq
  rwa [← Option.some.inj heq]

section
variable {cs front rest : List Char} {location : LocationInfo} {stopOnEquals : Bool} {v : ValueScan}

theorem index_of_append (hcs : cs = front ++ rest) : Place.index cs (some rest) = front.length := by
  rw [Place.index, hcs, List.length_append, Nat.add_sub_cancel]

theorem next_append {c : Char} (hcs : cs = front ++ c :: rest) :
    cs = (front ++ [c]) ++ rest ∧ (front ++ [c]).length = front.length + 1 :=
  ⟨by rw [hcs, List.append_assoc, List.singleton_append], by rw [List.length_append, List.length_singleton]⟩

/-- past the last character, a loop with turns to go panics -/
theorem getElem?_end (hcs : cs = front ++ []) : cs[front.length]? = none := by
  rw [hcs, List.append_nil, List.getElem?_eq_none_iff]

theorem getElem?_next {c : Char} (hcs : cs = front ++ c :: rest) : cs[front.length]? = some c := by
  rw [hcs, List.getElem?_append_right (Nat.le_refl _), Nat.sub_self]
  rfl

/-- the turns to go at a place in the line -/
theorem turns_next {c : Char} (hcs : cs = front ++ c :: rest) :
    utf8Length cs - front.length = (utf8Length cs - (front ++ [c]).length) + 1 := by
  have hle := Core.length_le_utf8Length cs
  rw [hcs] at hle ⊢
  simp only [List.length_append, List.length_cons, List.length_nil] at hle ⊢
  omega

/-- at the end of the line no turns are to go if it is ASCII -/
theorem turns_end (hcs : cs = front ++ []) (hascii : Ascii cs) : utf8Length cs - front.length = 0 := by
  rw [hascii, hcs, List.append_nil, Nat.sub_self]

/-- at the end of another line turns are to go -/
theorem turns_past (hcs : cs = front ++ []) (hascii : ¬ Ascii cs) : ∃ k, utf8Length cs - front.length = k + 1 := by
  have hlt : cs.length < utf8Length cs :=
    lt_of_le_of_ne (Core.length_le_utf8Length cs) fun heq => hascii heq.symm
  have hlength : cs.length = front.length := by rw [hcs, List.append_nil]
  exact ⟨utf8Length cs - front.length - 1, by omega⟩

theorem endsValue_eq_true_iff {c : Char} :
    endsValue stopOnEquals c = true ↔ c = ' ' ∨ c = '#' ∨ stopOnEquals = true ∧ c = '=' := decide_eq_true_iff

/-- one character inside a value -/
theorem ValueScan.read_inArgument {endIndex : ℕ} {c : Char} (hin : v.inArgument = true)
    (hquotes : v.usingQuotes = false) (hcontrol : v.inControl = false) :
    ValueScan.read location endIndex false false stopOnEquals c v =
      if c = '\\' then .ok (v, false)
      else if endsValue stopOnEquals c then
        .ok ({ v with index := if c = '#' then endIndex else v.index - 1, foundEnd := true }, true)
      else .ok ({ v with argument := v.argument ++ [c] }, false) := by
  unfold ValueScan.read
  simp only [hin, hcontrol, hquotes, if_true, Bool.false_eq_true, if_false, false_and, true_and]
  by_cases hback : c = '\\'
  · rw [if_pos hback, if_pos hback]
  · rw [if_neg hback, if_neg hback]
    simp only [← endsValue_eq_true_iff]
    by_cases hends : endsValue stopOnEquals c = true
    · rw [if_pos hends, if_pos hends]
      by_cases hcomment : c = '#'
      · rw [if_neg (by rw [hcomment]; decide), if_pos hcomment]
      · have hblank : c = ' ' ∨ c = '=' := by
          rcases endsValue_eq_true_iff.1 hends with h | h | ⟨_, h⟩
          · exact Or.inl h
          · exact absurd h hcomment
          · exact Or.inr h
        rw [if_pos hblank, if_neg hcomment]
    · rw [if_neg hends, if_neg hends]

/-- a turn of the loop at a character of the line -/
theorem ValueScan.loop_next {c : Char} (hcs : cs = front ++ c :: rest) (hindex : v.index = front.length) :
    ValueScan.loop cs location false false stopOnEquals (utf8Length cs - front.length) v =
      (ValueScan.read location (utf8Length cs) false false stopOnEquals c { v with index := v.index + 1 } >>= fun r =>
        if r.2 then return r.1
        else ValueScan.loop cs location false false stopOnEquals (utf8Length cs - (front ++ [c]).length) r.1) := by
  rw [turns_next hcs, ValueScan.loop, hindex, getElem?_next hcs]
  rfl

/-- the end of the line: the loop is over in an ASCII line, and panics in another one -/
theorem ValueScan.loop_end (hcs : cs = front ++ []) (hindex : v.index = front.length) :
    (ValueScan.loop cs location false false stopOnEquals (utf8Length cs - front.length) v).toOption =
      if Ascii cs then some v else none := by
  by_cases hascii : Ascii cs
  · rw [if_pos hascii, turns_end hcs hascii]
    rfl
  · obtain ⟨k, hk⟩ := turns_past hcs hascii
    rw [if_neg hascii, hk, ValueScan.loop, hindex, getElem?_end hcs]
    rfl

/-- what is read when no quotes and no control characters are -/
theorem ValueScan.finish_eq (hquotes : v.usingQuotes = false) (hcontrol : v.inControl = false) :
    v.finish location = .ok (v.index, if v.argument = [] then none else some v.argument) := by
  unfold ValueScan.finish
  rw [hquotes, hcontrol, if_neg (by simp)]
  split_ifs <;> first | rfl | contradiction

/-- inside a value -/
theorem ValueScan.loop_inArgument (hcs : cs = front ++ rest) (hindex : v.index = front.length)
    (hin : v.inArgument = true) (hquotes : v.usingQuotes = false) (hcontrol : v.inControl = false) :
    (ValueScan.loop cs location false false stopOnEquals (utf8Length cs - front.length) v >>=
        ValueScan.finish location).toOption =
      (restOfValue (Ascii cs) stopOnEquals rest).map fun r =>
        (Place.index cs r.2, if v.argument ++ r.1 = [] then none else some (v.argument ++ r.1)) := by
  induction rest generalizing front v with
  | nil =>
    rw [toOption_bind, ValueScan.loop_end hcs hindex]
    by_cases hascii : Ascii cs
    · have hend : v.index = utf8Length cs := by rw [hindex, hascii, hcs, List.append_nil]
      rw [if_pos hascii, Option.bind_some, ValueScan.finish_eq hquotes hcontrol, hend]
      simp [restOfValue, hascii, Place.index, Except.toOption]
    · simp [restOfValue, hascii]
  | cons c rest ih =>
    obtain ⟨hcs', hlength⟩ := next_append hcs
    have hindex' : v.index + 1 = (front ++ [c]).length := by rw [hindex, hlength]
    rw [ValueScan.loop_next hcs hindex,
      ValueScan.read_inArgument (v := { v with index := v.index + 1 }) hin hquotes hcontrol, restOfValue]
    by_cases hback : c = '\\'
    · have hends : ¬ endsValue stopOnEquals c = true := by rw [hback]; simp [endsValue]
      rw [if_pos hback, if_neg hends, Option.map_map]
      refine (ih (v := { v with index := v.index + 1 }) hcs' hindex' hin hquotes hcontrol).trans ?_
      simp only [Function.comp_def, if_pos hback]
    · rw [if_neg hback]
      by_cases hends : endsValue stopOnEquals c = true
      · rw [if_pos hends, if_pos hends]
        show (ValueScan.finish location { v with index := _, foundEnd := true }).toOption = _
        rw [ValueScan.finish_eq (v := { v with index := _, foundEnd := true }) hquotes hcontrol, Option.map_some,
          List.append_nil]
        have hplace : (if c = '#' then utf8Length cs else v.index + 1 - 1) =
            Place.index cs (if c = '#' then none else some (c :: rest)) := by
          split_ifs
          · rfl
          · rw [index_of_append hcs, hindex, Nat.add_sub_cancel]
        rw [← hplace]
        rfl
      · rw [if_neg hends, if_neg hends, Option.map_map]
        refine (ih (v := { v with index := v.index + 1, argument := v.argument ++ [c] }) hcs' hindex' hin hquotes
          hcontrol).trans ?_
        simp only [Function.comp_def, if_neg hback, List.append_assoc, List.singleton_append]

/-- a character between values -/
theorem ValueScan.read_before {endIndex : ℕ} {c : Char} (hin : v.inArgument = false) :
    ValueScan.read location endIndex false false stopOnEquals c v =
      if c = ' ' then .ok (v, false)
      else if c = '#' then .ok ({ v with index := endIndex }, true)
      else if c = '"' then .error (.error location .invalidQuotesLocation)
      else .ok ({ v with inArgument := true, argument := if c = '\\' then v.argument else v.argument ++ [c] }, false) := by
  unfold ValueScan.read
  simp only [hin, Bool.false_eq_true, if_false]
  by_cases hblank : c = ' '
  · rw [if_pos hblank, if_neg (by rw [hblank]; decide), if_neg (not_not.mpr hblank)]
  · rw [if_neg hblank, if_pos hblank]
    split_ifs <;> rfl

/-- from a place between values on -/
theorem ValueScan.loop_before (hcs : cs = front ++ rest) (hindex : v.index = front.length)
    (hin : v.inArgument = false) (hargument : v.argument = []) (hquotes : v.usingQuotes = false)
    (hcontrol : v.inControl = false) :
    (ValueScan.loop cs location false false stopOnEquals (utf8Length cs - front.length) v >>=
        ValueScan.finish location).toOption =
      (lexValue (Ascii cs) stopOnEquals rest).map fun r => (Place.index cs r.2, if r.1 = [] then none else some r.1) := by
  induction rest generalizing front v with
  | nil =>
    rw [toOption_bind, ValueScan.loop_end hcs hindex]
    by_cases hascii : Ascii cs
    · have hend : v.index = utf8Length cs := by rw [hindex, hascii, hcs, List.append_nil]
      rw [if_pos hascii, Option.bind_some, ValueScan.finish_eq hquotes hcontrol, hend]
      simp [lexValue, hascii, Place.index, Except.toOption, hargument]
    · simp [lexValue, hascii]
  | cons c rest ih =>
    obtain ⟨hcs', hlength⟩ := next_append hcs
    have hindex' : v.index + 1 = (front ++ [c]).length := by rw [hindex, hlength]
    rw [ValueScan.loop_next hcs hindex, ValueScan.read_before (v := { v with index := v.index + 1 }) hin, lexValue]
    by_cases hblank : c = ' '
    · rw [if_pos hblank, if_pos hblank]
      exact ih (v := { v with index := v.index + 1 }) hcs' hindex' hin hargument hquotes hcontrol
    rw [if_neg hblank, if_neg hblank]
    by_cases hcomment : c = '#'
    · rw [if_pos hcomment, if_pos hcomment]
      show (ValueScan.finish location { v with index := utf8Length cs }).toOption = _
      rw [ValueScan.finish_eq (v := { v with index := utf8Length cs }) hquotes hcontrol, hargument]
      rfl
    rw [if_neg hcomment, if_neg hcomment]
    by_cases hquote : c = '"'
    · rw [if_pos hquote, if_pos hquote]
      rfl
    · rw [if_neg hquote, if_neg hquote, Option.map_map]
      refine (ValueScan.loop_inArgument (v := { v with
        index := v.index + 1
        inArgument := true
        argument := if c = '\\' then v.argument else v.argument ++ [c] }) hcs' hindex' rfl hquotes hcontrol).trans ?_
      simp only [Function.comp_def, hargument, List.nil_append]
      by_cases hback : c = '\\'
      · simp only [if_pos hback, List.nil_append]
      · simp only [if_neg hback, List.singleton_append]

/-- **Values.** Where no quotes and control characters are read, a value is the one that is next in the line. -/
theorem parseNextValue_toOption (hcs : cs = front ++ rest) :
    (parseNextValue location cs front.length false false stopOnEquals).toOption =
      (lexValue (Ascii cs) stopOnEquals rest).map fun r => (Place.index cs r.2, if r.1 = [] then none else some r.1) := by
  unfold parseNextValue
  split_ifs with hend
  · -- only the end of an ASCII line has as many characters in front of it as the line has bytes
    have hlength : cs.length = front.length + rest.length := by rw [hcs, List.length_append]
    have hle := Core.length_le_utf8Length cs
    obtain rfl : rest = [] := List.eq_nil_of_length_eq_zero (by omega)
    have hascii : Ascii cs := by rw [Ascii]; omega
    have hindex : front.length = utf8Length cs := by omega
    simp [lexValue, hascii, hindex, Place.index, Except.toOption]
  · exact ValueScan.loop_before hcs rfl rfl rfl rfl rfl

/-! ### Places after a value -/

theorem Place.In.cons {c : Char} {place : Place} (h : Place.In rest place) : Place.In (c :: rest) place :=
  fun rest' heq => (h rest' heq).trans (List.suffix_cons c rest)

theorem restOfValue_in {ascii : Bool} {r : List Char × Place} (h : restOfValue ascii stopOnEquals rest = some r) :
    Place.In rest r.2 := by
  induction rest generalizing r with
  | nil =>
    rw [restOfValue] at h
    split_ifs at h
    rw [← Option.some.inj h]
    exact Place.in_none []
  | cons c rest ih =>
    rw [restOfValue] at h
    by_cases hends : endsValue stopOnEquals c = true
    · rw [if_pos hends] at h
      rw [← Option.some.inj h]
      by_cases hcomment : c = '#'
      · rw [if_pos hcomment]
        exact Place.in_none _
      · rw [if_neg hcomment]
        exact Place.in_some (List.suffix_refl _)
    · rw [if_neg hends] at h
      obtain ⟨r', hr', rfl⟩ := Option.map_eq_some_iff.mp h
      exact (ih hr').cons

theorem lexValue_in {ascii : Bool} {r : List Char × Place} (h : lexValue ascii stopOnEquals rest = some r) :
    Place.In rest r.2 := by
  induction rest generalizing r with
  | nil =>
    rw [lexValue] at h
    split_ifs at h
    rw [← Option.some.inj h]
    exact Place.in_none []
  | cons c rest ih =>
    rw [lexValue] at h
    by_cases hblank : c = ' '
    · rw [if_pos hblank] at h
      exact (ih h).cons
    rw [if_neg hblank] at h
    by_cases hcomment : c = '#'
    · rw [if_pos hcomment] at h
      rw [← Option.some.inj h]
      exact Place.in_none _
    rw [if_neg hcomment] at h
    by_cases hquote : c = '"'
    · rw [if_pos hquote] at h
      exact absurd h (by simp)
    · rw [if_neg hquote] at h
      obtain ⟨r', hr', rfl⟩ := Option.map_eq_some_iff.mp h
      exact (restOfValue_in hr').cons

theorem lexEquals_in {ascii : Bool} {place : Place} (h : lexEquals ascii rest = some place) : Place.In rest place := by
  induction rest with
  | nil =>
    rw [lexEquals] at h
    split_ifs at h
    rw [← Option.some.inj h]
    exact Place.in_none []
  | cons c rest ih =>
    rw [lexEquals] at h
    by_cases hblank : c = ' '
    · rw [if_pos hblank] at h
      exact (ih h).cons
    · rw [if_neg hblank] at h
      rw [← Option.some.inj h]
      by_cases hequals : c = '='
      · rw [if_pos hequals]
        exact Place.in_some (List.suffix_cons c rest)
      · rw [if_neg hequals]
        exact Place.in_none _

theorem Place.In.trans {place : Place} (h : Place.In rest place) (hrest : rest <:+ cs) : Place.In cs place :=
  fun rest' heq => (h rest' heq).trans hrest

/-! ### Tags and names -/

theorem findEquals_toOption (hcs : cs = front ++ rest) :
    (findEquals cs (utf8Length cs - front.length) front.length).toOption =
      (lexEquals (Ascii cs) rest).map fun place => place.map fun after => Place.index cs (some after) := by
  induction rest generalizing front with
  | nil =>
    by_cases hascii : Ascii cs
    · rw [turns_end hcs hascii]
      simp [findEquals, lexEquals, hascii, Except.toOption]
    · obtain ⟨k, hk⟩ := turns_past hcs hascii
      rw [hk, findEquals, getElem?_end hcs]
      simp [lexEquals, hascii, Except.toOption, bind, Except.bind]
  | cons c rest ih =>
    obtain ⟨hcs', hlength⟩ := next_append hcs
    rw [turns_next hcs, findEquals, getElem?_next hcs, lexEquals, ← hlength]
    by_cases hblank : c = ' '
    · rw [if_pos hblank]
      simpa [hblank, bind, Except.bind] using ih hcs'
    · rw [if_neg hblank]
      by_cases hequals : c = '='
      · rw [if_pos hequals, Option.map_some, Option.map_some, index_of_append hcs']
        simp [hequals, bind, Except.bind, pure, Except.pure, Except.toOption]
      · simp [hblank, hequals, bind, Except.bind, pure, Except.pure, Except.toOption]

theorem ascii_of_blanks (h : ∀ c ∈ cs, c = ' ') : Ascii cs := by
  induction cs with
  | nil => rfl
  | cons c cs ih =>
    have hrest := ih fun d hd => h d (List.mem_cons_of_mem c hd)
    rw [Ascii, Core.utf8Length_cons, hrest, h c List.mem_cons_self, List.length_cons, Nat.add_comm]
    rfl

/-- the loop of `find_tag` at a place that only blanks are before -/
theorem findTag.loop_toOption (hcs : cs = front ++ rest) (hblanks : ∀ c ∈ front, c = ' ') :
    (findTag.loop location cs (utf8Length cs - front.length) front.length).toOption =
      (lexTag (Ascii cs) rest).map fun r => (Place.index cs r.2, if r.1 = [] then none else some ('@' :: r.1)) := by
  induction rest generalizing front with
  | nil =>
    obtain rfl : cs = front := by rw [hcs, List.append_nil]
    rw [turns_end hcs (ascii_of_blanks hblanks)]
    rfl
  | cons c rest ih =>
    obtain ⟨hcs', hlength⟩ := next_append hcs
    rw [turns_next hcs, findTag.loop, getElem?_next hcs, lexTag, ← hlength]
    by_cases htag : c = '@'
    · rw [if_pos htag, unwrap_some, toOption_bind]
      show (if c = '@' then _ else _ : Except Failure _).toOption = _
      rw [if_pos htag, toOption_bind, parseNextValue_toOption hcs', Option.bind_map]
      cases lexValue (Ascii cs) false rest with
      | none => rfl
      | some r =>
        obtain ⟨value, place⟩ := r
        cases value <;> rfl
    rw [if_neg htag]
    by_cases hblank : c = ' '
    · rw [if_pos hblank]
      have hblanks' : ∀ d ∈ front ++ [c], d = ' ' := by
        intro d hd
        rcases List.mem_append.mp hd with hd | hd
        · exact hblanks d hd
        · rw [List.mem_singleton.mp hd, hblank]
      simpa [htag, hblank, bind, Except.bind] using ih hcs' hblanks'
    · rw [if_neg hblank, Option.map_some, index_of_append hcs]
      simp [htag, hblank, bind, Except.bind, pure, Except.pure, Except.toOption]

theorem findTag_toOption (hcs : cs ≠ []) :
    (findTag location cs 0).toOption =
      (lexTag (Ascii cs) cs).map fun r => (Place.index cs r.2, if r.1 = [] then none else some ('@' :: r.1)) := by
  unfold findTag
  have hpos : ¬ utf8Length cs ≤ 0 := fun hle => hcs (Core.utf8Length_eq_zero_iff.mp (Nat.le_zero.mp hle))
  rw [if_neg hpos]
  exact findTag.loop_toOption (List.nil_append cs).symm (by simp)

theorem findOutputAndCommand_toOption {place : Place} (hplace : Place.In cs place) :
    (findOutputAndCommand location cs (Place.index cs place)).toOption =
      (lexNames (Ascii cs) place).map fun r => (Place.index cs r.2.2, r.1, r.2.1) := by
  unfold findOutputAndCommand
  cases place with
  | none =>
    have hend : parseNextValue location cs (Place.index cs none) false false true = .ok (utf8Length cs, none) :=
      if_pos (Nat.le_refl _)
    rw [hend]
    rfl
  | some rest =>
    obtain ⟨front, hcs⟩ := hplace rest rfl
    rw [toOption_bind, index_of_append hcs.symm, parseNextValue_toOption hcs.symm, lexNames, Option.bind_map]
    cases hvalue : lexValue (Ascii cs) true rest with
    | none => rfl
    | some r =>
      obtain ⟨value, after⟩ := r
      by_cases hempty : value = []
      · simp [hempty, pure, Except.pure, Except.toOption]
      · have hafter : Place.In cs after := (lexValue_in hvalue).trans ⟨front, hcs⟩
        simp only [Option.bind_some, Function.comp_def, hempty, if_false, toOption_bind]
        cases after with
        | none =>
          rw [show findEquals cs (utf8Length cs - Place.index cs none) (Place.index cs none) = .ok none by
            rw [Place.index, Nat.sub_self, findEquals]]
          simp [hempty, pure, Except.pure, Except.toOption]
        | some after =>
          obtain ⟨front', hcs'⟩ := hafter after rfl
          rw [index_of_append hcs'.symm, findEquals_toOption hcs'.symm]
          cases hequals : lexEquals (Ascii cs) after with
          | none => simp [hequals, hempty]
          | some place =>
            have hplace : Place.In cs place := (lexEquals_in hequals).trans ⟨front', hcs'⟩
            cases place with
            | none => simp [hequals, hempty, pure, Except.pure, Except.toOption, index_of_append hcs'.symm]
            | some rest' =>
              obtain ⟨front'', hcs''⟩ := hplace rest' rfl
              simp only [Option.map_some, Option.bind_some, toOption_bind, index_of_append hcs''.symm,
                parseNextValue_toOption hcs''.symm]
              cases hname : lexValue (Ascii cs) false rest' with
              | none => simp [hequals, hempty, hname]
              | some r =>
                obtain ⟨name, place⟩ := r
                by_cases hnone : name = []
                · simp [hequals, hempty, hname, hnone, pure, Except.pure, Except.toOption, index_of_append hcs''.symm]
                · simp [hequals, hempty, hname, hnone, pure, Except.pure, Except.toOption]

/-! ### Lines -/

theorem parseArgumentsPosix_toOption (place : Place) :
    (parseArgumentsPosix L cs (Place.index cs place) location).toOption = lexArguments L cs place := by
  unfold parseArgumentsPosix
  rw [toOption_bind, toOption_unwrap]
  simp only [toOption_okOr]
  cases place with
  | none =>
    have hend := Core.sliceFrom_append cs []
    rw [List.append_nil] at hend
    rw [Place.index, hend]
    rfl
  | some rest => rfl

theorem lexTag_in {ascii : Bool} {r : List Char × Place} (h : lexTag ascii rest = some r) : Place.In rest r.2 := by
  induction rest with
  | nil =>
    rw [← Option.some.inj h]
    exact Place.in_some (List.suffix_refl _)
  | cons c rest ih =>
    rw [lexTag] at h
    by_cases htag : c = '@'
    · rw [if_pos htag] at h
      exact (lexValue_in h).cons
    rw [if_neg htag] at h
    by_cases hblank : c = ' '
    · rw [if_pos hblank] at h
      exact (ih h).cons
    · rw [if_neg hblank] at h
      rw [← Option.some.inj h]
      exact Place.in_some (List.suffix_refl _)

/-- the instruction of a line whose location has the tag already -/
theorem parseUntagged_toOption {place : Place} (hplace : Place.In cs place) :
    (parseUntagged L cs (Place.index cs place) location).toOption =
      (lexUntagged L cs location.tag place).map (Lexed.at location) := by
  unfold parseUntagged lexUntagged
  rw [toOption_bind, findOutputAndCommand_toOption hplace, Option.bind_map]
  cases lexNames (Ascii cs) place with
  | none => rfl
  | some r =>
    obtain ⟨output, name, after⟩ := r
    show (_ >>= _ : Except Failure Instruction).toOption = _
    rw [toOption_bind, parseArgumentsPosix_toOption]
    cases harguments : lexArguments L cs after with
    | none => simp [harguments]
    | some arguments =>
      simp only [harguments, Option.bind_eq_bind, Option.bind_some]
      split_ifs <;> rfl

theorem parseCommand_toOption (hcs : cs ≠ []) (htag : location.tag = none) :
    (parseCommand L cs 0 location).toOption = (lexCommand L cs).map (Lexed.at location) := by
  unfold parseCommand lexCommand
  rw [if_neg hcs, toOption_bind, findTag_toOption hcs, Option.bind_map]
  cases hlex : lexTag (Ascii cs) cs with
  | none => rfl
  | some r =>
    obtain ⟨tag, place⟩ := r
    have hrest : (parseUntagged L cs _ (location.withTag (if tag = [] then none else some ('@' :: tag)))).toOption = _ :=
      parseUntagged_toOption L (lexTag_in hlex)
    have hlocation : (location.withTag (if tag = [] then none else some ('@' :: tag))).tag =
        if tag = [] then none else some (String.ofList tag) := by
      split_ifs
      · exact htag
      · rfl
    have hat : Lexed.at (location.withTag (if tag = [] then none else some ('@' :: tag))) = Lexed.at location := by
      split_ifs <;> rfl
    rw [hlocation, hat] at hrest
    exact hrest

/-- inside the name of a directive -/
theorem directiveName_inName (directive : List Char) (hcs : cs = front ++ rest) (hne : directive ≠ []) :
    (directiveName cs (utf8Length cs - front.length) front.length directive).toOption =
      (restOfName (Ascii cs) rest).map fun r => (directive ++ r.1, Place.index cs r.2) := by
  induction rest generalizing front directive with
  | nil =>
    by_cases hascii : Ascii cs
    · rw [turns_end hcs hascii]
      simp [directiveName, restOfName, hascii, Except.toOption, Place.index]
    · obtain ⟨k, hk⟩ := turns_past hcs hascii
      rw [hk, directiveName, getElem?_end hcs]
      simp [restOfName, hascii, Except.toOption, bind, Except.bind]
  | cons c rest ih =>
    obtain ⟨hcs', hlength⟩ := next_append hcs
    rw [turns_next hcs, directiveName, getElem?_next hcs, restOfName, ← hlength]
    by_cases hblank : c = ' '
    · rw [if_pos hblank, Option.map_some, index_of_append hcs]
      simp [hblank, hne, bind, Except.bind, pure, Except.pure, Except.toOption]
    · rw [if_neg hblank, Option.map_map]
      have hnext := ih (directive ++ [c]) hcs' (by simp)
      simpa [hblank, bind, Except.bind, Function.comp_def] using hnext

/-- before the name of a directive -/
theorem directiveName_before (hcs : cs = front ++ rest) :
    (directiveName cs (utf8Length cs - front.length) front.length []).toOption.bind
        (fun r => if r.1 = [] then none else some r) =
      (lexName (Ascii cs) rest).map fun r => (r.1, Place.index cs r.2) := by
  induction rest generalizing front with
  | nil =>
    by_cases hascii : Ascii cs
    · rw [turns_end hcs hascii]
      simp [directiveName, lexName, Except.toOption]
    · obtain ⟨k, hk⟩ := turns_past hcs hascii
      rw [hk, directiveName, getElem?_end hcs]
      simp [lexName, Except.toOption, bind, Except.bind]
  | cons c rest ih =>
    obtain ⟨hcs', hlength⟩ := next_append hcs
    rw [turns_next hcs, directiveName, getElem?_next hcs, lexName, ← hlength]
    by_cases hblank : c = ' '
    · rw [if_pos hblank]
      simpa [hblank, bind, Except.bind] using ih hcs'
    · rw [if_neg hblank, Option.map_map]
      have hname := directiveName_inName [c] hcs' (by simp)
      have hread : (unwrap (some c) >>= fun character =>
          if character = ' ' then
            if ([] : List Char) ≠ [] then return ([], front.length)
            else directiveName cs (utf8Length cs - (front ++ [c]).length) (front ++ [c]).length []
          else directiveName cs (utf8Length cs - (front ++ [c]).length) (front ++ [c]).length ([] ++ [character])) =
          directiveName cs (utf8Length cs - (front ++ [c]).length) (front ++ [c]).length [c] := if_neg hblank
      rw [hread, hname]
      cases restOfName (Ascii cs) rest with
      | none => rfl
      | some r => simp

theorem parseDirective_toOption {symbol : Char} (hcs : cs = symbol :: rest) (htag : location.tag = none) :
    (parseDirective L cs 1 location).toOption = (lexDirective L cs).map (Lexed.at location) := by
  have hcs' : cs = [symbol] ++ rest := hcs
  have hname := directiveName_before hcs'
  have htail : cs.tail = rest := by rw [hcs, List.tail_cons]
  unfold parseDirective lexDirective
  rw [if_neg (by rw [hcs]; exact List.cons_ne_nil _ _), toOption_bind, htail]
  rw [List.length_singleton] at hname
  cases hread : (directiveName cs (utf8Length cs - 1) 1 []).toOption with
  | none =>
    rw [hread] at hname
    rw [Option.map_eq_none_iff.mp hname.symm]
    rfl
  | some r =>
    rw [hread, Option.bind_some] at hname
    obtain ⟨name, index⟩ := r
    by_cases hnone : name = []
    · rw [if_pos hnone] at hname
      rw [Option.map_eq_none_iff.mp hname.symm]
      simp [hnone, Except.toOption]
    · rw [if_neg hnone] at hname
      obtain ⟨r, hlex, heq⟩ := Option.map_eq_some_iff.mp hname.symm
      obtain ⟨rfl, rfl⟩ := Prod.mk.inj heq
      rw [hlex]
      simp only [Option.bind_some, hnone, if_false, toOption_bind, parseArgumentsPosix_toOption]
      cases harguments : lexArguments L cs r.2 with
      | none => simp [harguments]
      | some arguments =>
        simp [harguments, Lexed.at, ← htag, pure, Except.pure, Except.toOption]

/-- **Lines.** The parser reads a line exactly as what the line says. -/
theorem parseLine_toOption (line : List Char) (htag : location.tag = none) :
    (parseLine L line location).toOption = (lexLine L line).map (Lexed.at location) := by
  unfold parseLine lexLine
  by_cases hempty : trim line = [] ∨ (trim line).head? = some '#'
  · rw [if_pos hempty, if_pos hempty, Option.map_some, Lexed.at, ← htag]
    rfl
  rw [if_neg hempty, if_neg hempty]
  have hne : trim line ≠ [] := fun h => hempty (Or.inl h)
  by_cases hdirective : (trim line).head? = some '!'
  · rw [if_pos hdirective, if_pos hdirective]
    obtain ⟨symbol, rest, hcs⟩ := List.exists_cons_of_ne_nil hne
    exact parseDirective_toOption L hcs htag
  · rw [if_neg hdirective, if_neg hdirective]
    exact parseCommand_toOption L hne htag

/-! ### Scripts -/

theorem toOption_mapM {α β : Type} (f : α → Except Failure β) (l : List α) :
    (l.mapM f).toOption = l.mapM fun a => (f a).toOption := by
  induction l with
  | nil => rfl
  | cons a l ih =>
    rw [List.mapM_cons, List.mapM_cons, toOption_bind]
    cases f a with
    | error e => rfl
    | ok b =>
      show (_ >>= _ : Except Failure _).toOption = _
      rw [toOption_bind, ih]
      rfl

/-- the last byte of a line is a character of its own, or is not cut off -/
theorem sliceTo_last (line : List Char) (hne : line ≠ []) :
    sliceTo line (utf8Length line - 1) = if line.getLast?.map Char.utf8Size = some 1 then some line.dropLast else none := by
  obtain ⟨front, c, rfl⟩ := (List.eq_nil_or_concat' line).resolve_left hne
  have hpos := c.utf8Size_pos
  rw [List.getLast?_concat, List.dropLast_concat, Core.utf8Length_append, Option.map_some,
    show utf8Length [c] = c.utf8Size from Nat.add_zero _]
  split_ifs with hone
  · rw [Option.some.inj hone, Nat.add_sub_cancel]
    exact Core.sliceTo_append front [c]
  · rw [Option.eq_none_iff_forall_ne_some]
    intro x hx
    obtain ⟨back, heq, hlen⟩ := Core.sliceTo_eq_some_iff.mp hx
    have htotal := congrArg utf8Length heq
    rw [Core.utf8Length_append, Core.utf8Length_append, show utf8Length [c] = c.utf8Size from Nat.add_zero _] at htotal
    have hback : back ≠ [] := by
      rintro rfl
      rw [Core.utf8Length_nil] at htotal
      omega
    -- what is cut off ends with the last character
    obtain ⟨back', d, rfl⟩ := (List.eq_nil_or_concat' back).resolve_left hback
    rw [← List.append_assoc] at heq
    obtain ⟨_, hd⟩ := List.append_inj' heq rfl
    obtain rfl := (List.cons.inj hd).1
    rw [Core.utf8Length_append, show utf8Length [c] = c.utf8Size from Nat.add_zero _] at htotal
    have hwide : c.utf8Size ≠ 1 := fun h => hone (congrArg some h)
    omega

theorem parseScript_loop_toOption {ls : List (List Char)} {n multilineLine : ℕ} {multiline : Option (List Char)}
    (htag : location.tag = none) :
    (parseScript.loop L location ls n multiline multilineLine).toOption =
      (logicalLines ls n (multiline.map (·, multilineLine))).bind fun lines => lines.mapM (lexNumbered L location) := by
  induction ls generalizing n multiline multilineLine with
  | nil => rfl
  | cons l ls ih =>
    have hline : (Option.map Prod.fst (multiline.map (·, multilineLine))).getD [] = multiline.getD [] := by
      cases multiline <;> rfl
    have hnumber : (Option.map Prod.snd (multiline.map (·, multilineLine))).getD n =
        if multiline = none then n else multilineLine := by
      cases multiline <;> rfl
    rw [parseScript.loop, logicalLines, hline, hnumber]
    generalize multiline.getD [] ++ trim l = line
    generalize (if multiline = none then n else multilineLine) = number
    by_cases hback : (trimEnd line).getLast? = some '\\'
    · have hne : line ≠ [] := by
        rintro rfl
        exact absurd hback (by simp [trimEnd])
      rw [if_pos hback, if_pos hback, toOption_bind, toOption_unwrap, sliceTo_last line hne]
      split_ifs
      · exact ih
      · rfl
    rw [if_neg hback, if_neg hback]
    by_cases hcomment : line.head? = some '#'
    · rw [if_pos hcomment, if_pos hcomment]
      exact ih
    have hlocated : ({ location with sourceLine := some number } : LocationInfo).tag = none := htag
    have hparsed : ((splitLines line).mapM (parseLine L · { location with sourceLine := some number })).toOption =
        ((splitLines line).map (number, ·)).mapM (lexNumbered L location) := by
      rw [toOption_mapM, List.mapM_map]
      exact congrArg (fun f => (splitLines line).mapM f) (funext fun part => parseLine_toOption L part hlocated)
    rw [if_neg hcomment, if_neg hcomment, toOption_bind, hparsed, Option.bind_map]
    cases hfirst : ((splitLines line).map (number, ·)).mapM (lexNumbered L location) with
    | none =>
      cases logicalLines ls (n + 1) none with
      | none => rfl
      | some rest => simp [List.mapM_append, hfirst]
    | some first =>
      show (_ >>= _ : Except Failure _).toOption = _
      rw [toOption_bind, ih, Option.map_none]
      cases logicalLines ls (n + 1) none with
      | none => rfl
      | some rest =>
        simp only [Option.bind_some, Function.comp_def, List.mapM_append, hfirst]
        rfl

/-- **Scripts.** The parser reads a script exactly as what its lines say. -/
theorem parseScript_toOption (text : String) (htag : location.tag = none) :
    (parseScript L text location).toOption = lexScript L text location :=
  parseScript_loop_toOption L htag

end

end BigWorlds.Machine
