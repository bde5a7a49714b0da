/-
Parsing scripts (`machine/script/parser.rs`).

A line is read character by character, up to an end that is its number of bytes: in a line that is not ASCII a loop that
is not left early indexes past the last character, and panics. The place where the arguments start is a number of
characters, and the line is sliced there by bytes. What the loops leave to read is in the end split by a library, `shlex`.

- `parseNextValue`: a loop over the characters of a value, with its local variables in `ValueScan`;
- `parseScript`: from the text to instructions with their locations.
-/
import BigWorlds.Machine.Actions
import Mathlib.Data.List.DropRight

namespace BigWorlds.Machine

open BigWorlds.Core (utf8Length sliceFrom sliceTo)

/-! ## Instructions -/

structure DirectivePrototype where
  name : Option String
  arguments : Option (List String)
deriving DecidableEq, Repr

inductive InstructionType where
  | directive (proto : DirectivePrototype)
  | command (proto : CommandPrototype)
  /-- an empty line -/
  | none_
deriving DecidableEq, Repr

structure Instruction where
  location : LocationInfo
  type_ : InstructionType
deriving DecidableEq, Repr

/-! ## Text -/

/-- `char::is_whitespace` -/
def isWhitespace (c : Char) : Bool :=
  (9 ≤ c.toNat && c.toNat ≤ 13) || c.toNat == 0x20 || c.toNat == 0x85 || c.toNat == 0xA0 || c.toNat == 0x1680 ||
    (0x2000 ≤ c.toNat && c.toNat ≤ 0x200A) || c.toNat == 0x2028 || c.toNat == 0x2029 || c.toNat == 0x202F ||
    c.toNat == 0x205F || c.toNat == 0x3000

def trimStart (cs : List Char) : List Char := cs.dropWhile isWhitespace

def trimEnd (cs : List Char) : List Char := cs.rdropWhile isWhitespace

def trim (cs : List Char) : List Char := trimEnd (trimStart cs)

/-- a line without the carriage return before its line feed -/
def withoutReturn (line : List Char) : List Char := if line.getLast? = some '\r' then line.dropLast else line

/-- `str::lines`: what is after the last line feed is a line unless it is empty -/
def lines (text : List Char) : List (List Char) :=
  (text.splitOn '\n').dropLast.map withoutReturn ++ (text.splitOn '\n').getLast?.toList.filter (· ≠ [])

/-! ## Values -/

/-- the local variables of `parse_next_value` -/
structure ValueScan where
  argument : List Char
  index : ℕ
  inArgument : Bool
  usingQuotes : Bool
  inControl : Bool
  foundEnd : Bool
  foundVariablePrefix : Bool
deriving DecidableEq, Repr

def ValueScan.start (index : ℕ) : ValueScan := ⟨[], index, false, false, false, false, false⟩

/-- the body of the loop in `parse_next_value` where `index` is past the character; whether the loop is left is given
with the variables -/
def ValueScan.read (location : LocationInfo) (endIndex : ℕ) (allowQuotes allowControl stopOnEquals : Bool)
    (character : Char) (v : ValueScan) : Except Failure (ValueScan × Bool) :=
  if v.inArgument then
    if v.inControl then
      if v.foundVariablePrefix then
        if character = '{' then
          .ok ({ v with argument := v.argument ++ ['\\', '$', '{'], inControl := false, foundVariablePrefix := false },
            false)
        else .error (.error location .controlWithoutValidValue)
      else if character = '\\' ∨ character = '"' then
        .ok ({ v with argument := v.argument ++ [character], inControl := false }, false)
      else if character = 'n' then .ok ({ v with argument := v.argument ++ ['\n'], inControl := false }, false)
      else if character = 'r' then .ok ({ v with argument := v.argument ++ ['\r'], inControl := false }, false)
      else if character = 't' then .ok ({ v with argument := v.argument ++ ['\t'], inControl := false }, false)
      else if character = '$' then .ok ({ v with foundVariablePrefix := true }, false)
      else .error (.error location .controlWithoutValidValue)
    else if character = '\\' then
      if allowControl then .ok ({ v with inControl := true, foundVariablePrefix := false }, false)
      else .ok (v, false)
    else if v.usingQuotes ∧ character = '"' then .ok ({ v with foundEnd := true }, true)
    else if v.usingQuotes = false ∧ (character = ' ' ∨ character = '#' ∨ stopOnEquals ∧ character = '=') then
      if character = ' ' ∨ character = '=' then .ok ({ v with index := v.index - 1, foundEnd := true }, true)
      else .ok ({ v with index := endIndex, foundEnd := true }, true)
    else .ok ({ v with argument := v.argument ++ [character] }, false)
  else if character = '#' then .ok ({ v with index := endIndex }, true)
  else if character ≠ ' ' then
    if character = '"' then
      if allowQuotes then .ok ({ v with inArgument := true, usingQuotes := true }, false)
      else .error (.error location .invalidQuotesLocation)
    else if character = '\\' then
      if allowControl then .ok ({ v with inArgument := true, inControl := true }, false)
      else .ok ({ v with inArgument := true }, false)
    else .ok ({ v with inArgument := true, argument := v.argument ++ [character] }, false)
  else .ok (v, false)

/-- the loop in `parse_next_value`, with `k` turns to go -/
def ValueScan.loop (cs : List Char) (location : LocationInfo) (allowQuotes allowControl stopOnEquals : Bool) :
    (k : ℕ) → ValueScan → Except Failure ValueScan
  | 0, v => .ok v
  | k + 1, v => do
    let character ← unwrap cs[v.index]?
    let r ← ValueScan.read location (utf8Length cs) allowQuotes allowControl stopOnEquals character
      { v with index := v.index + 1 }
    if r.2 then return r.1 else ValueScan.loop cs location allowQuotes allowControl stopOnEquals k r.1

/-- what `parse_next_value` makes of its variables in the end -/
def ValueScan.finish (location : LocationInfo) (v : ValueScan) : Except Failure (ℕ × Option (List Char)) :=
  if v.inArgument ∧ v.foundEnd = false ∧ (v.inControl ∨ v.usingQuotes) then
    if v.inControl then .error (.error location .controlWithoutValidValue)
    else .error (.error location .missingEndQuotes)
  else if v.argument = [] then
    if v.usingQuotes then .ok (v.index, some v.argument) else .ok (v.index, none)
  else .ok (v.index, some v.argument)

def parseNextValue (location : LocationInfo) (cs : List Char) (startIndex : ℕ)
    (allowQuotes allowControl stopOnEquals : Bool) : Except Failure (ℕ × Option (List Char)) :=
  if utf8Length cs ≤ startIndex then .ok (startIndex, none)
  else do
    let v ← ValueScan.loop cs location allowQuotes allowControl stopOnEquals (utf8Length cs - startIndex)
      (.start startIndex)
    v.finish location

/-! ## Lines -/

variable (L : Libraries)

/-- `Option::ok_or` -/
def okOr {α : Type} (o : Option α) (e : Failure) : Except Failure α :=
  match o with
  | some a => .ok a
  | none => .error e

def parseArgumentsPosix (cs : List Char) (startIndex : ℕ) (location : LocationInfo) :
    Except Failure (List String) := do
  let text ← unwrap (sliceFrom cs startIndex)
  okOr (L.shlex (String.ofList text)) (.error location .missingEndQuotes)

/-- the loop of `find_tag`, with `k` turns to go -/
def findTag.loop (location : LocationInfo) (cs : List Char) :
    (k index : ℕ) → Except Failure (ℕ × Option (List Char))
  | 0, index => .ok (index, none)
  | k + 1, index => do
    let character ← unwrap cs[index]?
    if character = '@' then
      match ← parseNextValue location cs (index + 1) false false false with
      | (next, none) => return (next, none)
      | (_, some []) => .error (.error location .emptyTag)
      | (next, some label) => return (next, some ('@' :: label))
    else if character ≠ ' ' then return (index, none)
    else findTag.loop location cs k (index + 1)

def findTag (location : LocationInfo) (cs : List Char) (startIndex : ℕ) : Except Failure (ℕ × Option (List Char)) :=
  if utf8Length cs ≤ startIndex then .ok (startIndex, none)
  else findTag.loop location cs (utf8Length cs - startIndex) startIndex

/-- the loop of `find_output_and_command`, with `k` turns to go: the index after an equals sign, if one is next -/
def findEquals (cs : List Char) : (k index : ℕ) → Except Failure (Option ℕ)
  | 0, _ => .ok none
  | k + 1, index => do
    let character ← unwrap cs[index]?
    if character ≠ ' ' then return if character = '=' then some (index + 1) else none
    else findEquals cs k (index + 1)

/-- the output and the name, and the index after them -/
def findOutputAndCommand (location : LocationInfo) (cs : List Char) (startIndex : ℕ) :
    Except Failure (ℕ × Option (List Char) × Option (List Char)) := do
  match ← parseNextValue location cs startIndex false false true with
  | (next, none) => return (next, none, none)
  | (next, some value) =>
    match ← findEquals cs (utf8Length cs - next) next with
    | none => return (next, none, some value)
    | some index =>
      match ← parseNextValue location cs index false false false with
      | (_, none) => return (index, some value, none)
      | (next, some name) => return (next, some value, some name)

/-- the location with the tag, without its symbol (`val[1..]`) -/
def LocationInfo.withTag (location : LocationInfo) : Option (List Char) → LocationInfo
  | some val => { location with tag := some (String.ofList val.tail) }
  | none => location

/-- `parse_command` after the tag -/
def parseUntagged (cs : List Char) (index : ℕ) (location : LocationInfo) : Except Failure Instruction := do
  let (index, output, name) ← findOutputAndCommand location cs index
  let arguments ← parseArgumentsPosix L cs index location
  if location.tag = none ∧ output = none ∧ name = none then return ⟨location, .none_⟩
  else return ⟨location, .command ⟨name.map String.ofList, some arguments, output.map String.ofList⟩⟩

def parseCommand (cs : List Char) (startIndex : ℕ) (location : LocationInfo) : Except Failure Instruction :=
  if cs = [] then .ok ⟨location, .none_⟩
  else do
    let (index, tag) ← findTag location cs startIndex
    parseUntagged L cs index (location.withTag tag)

/-- the loop of `parse_directive`, with `k` turns to go -/
def directiveName (cs : List Char) : (k index : ℕ) → (directive : List Char) → Except Failure (List Char × ℕ)
  | 0, _, directive => .ok (directive, utf8Length cs)
  | k + 1, index, directive => do
    let character ← unwrap cs[index]?
    if character = ' ' then
      if directive ≠ [] then return (directive, index) else directiveName cs k (index + 1) directive
    else directiveName cs k (index + 1) (directive ++ [character])

def parseDirective (cs : List Char) (startIndex : ℕ) (location : LocationInfo) : Except Failure Instruction :=
  if cs = [] then .error (.error location .noDirectivePresent)
  else do
    let (directive, directiveEnd) ← directiveName cs (utf8Length cs - startIndex) startIndex []
    if directive = [] then .error (.error location .noDirectivePresent)
    else
      let arguments ← parseArgumentsPosix L cs directiveEnd location
      return ⟨location, .directive ⟨some (String.ofList directive), some arguments⟩⟩

def parseLine (line : List Char) (location : LocationInfo) : Except Failure Instruction :=
  if trim line = [] ∨ (trim line).head? = some '#' then .ok ⟨location, .none_⟩
  else if (trim line).head? = some '!' then parseDirective L (trim line) 1 location
  else parseCommand L (trim line) 0 location

/-! ## Scripts -/

/-- the commands of a line: its parts between semicolons, if it has any -/
def splitLines (line : List Char) : List (List Char) :=
  if ';' ∈ line then ((line.splitOn ';').map trim).filter (· ≠ []) else [line]

/-- the loop of `parse_script` over the lines from number `lineNumber` on; a line ended by a backslash is kept in
`multiline`, and `multilineLine` is the number of the first of them -/
def parseScript.loop (location : LocationInfo) :
    List (List Char) → (lineNumber : ℕ) → (multiline : Option (List Char)) → (multilineLine : ℕ) →
      Except Failure (List Instruction)
  | [], _, _, _ => .ok []
  | l :: ls, n, multiline, multilineLine =>
    let line := multiline.getD [] ++ trim l
    if (trimEnd line).getLast? = some '\\' then do
      let start ← unwrap (sliceTo line (utf8Length line - 1))
      parseScript.loop location ls (n + 1) (some start) (if multiline = none then n else multilineLine)
    else
      let location' := { location with sourceLine := some (if multiline = none then n else multilineLine) }
      if line.head? = some '#' then parseScript.loop location ls (n + 1) none 0
      else do
        let instructions ← (splitLines line).mapM (parseLine L · location')
        let rest ← parseScript.loop location ls (n + 1) none 0
        return instructions ++ rest

def parseScript (text : String) (location : LocationInfo) : Except Failure (List Instruction) :=
  parseScript.loop L location (lines text.toList) 1 none 0

end BigWorlds.Machine
