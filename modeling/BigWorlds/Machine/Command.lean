/-
Commands of the machine's script language (`machine/mod.rs`, `machine/cmd/`): prototypes, the search for the end of a
block, and how `Command::from_prototype` builds commands.

Every block command calls `command_search` with name tables of its own. A search that meets the opening name of a block
its tables do not list goes on as if nothing had opened; one that lists `else` among the openers counts it as one.
Commands on one line neither open nor close a block; they are kept by name and arguments. How arguments are read
(addresses, values, options) is a parameter, `Readers`.
-/
import BigWorlds.Core.Except
import BigWorlds.Model.Entity

namespace BigWorlds.Machine

/-! ## Prototypes, locations, errors -/

structure LocationInfo where
  root : Option String
  source : Option String
  sourceLine : Option ℕ
  line : Option ℕ
  tag : Option String
deriving DecidableEq, Repr

def LocationInfo.empty : LocationInfo := ⟨none, none, none, none, none⟩

structure CommandPrototype where
  name : Option String
  arguments : Option (List String)
  output : Option String
deriving DecidableEq, Repr

/-- the kinds of `machine::error::ErrorKind` that loading a script returns -/
inductive ErrorKind where
  | controlWithoutValidValue
  | missingEndQuotes
  | invalidQuotesLocation
  | emptyTag
  | noDirectivePresent
  | errorProcessingDirective (text : String)
  | noCommandPresent
  | unknownCommand (name : String)
  | invalidCommandBody (text : String)
  | invalidAddress (text : String)
  | coreError (text : String)
  | parseError (text : String)
  | other (text : String)
deriving DecidableEq, Repr

/-- how loading a script fails: with an error, or by a panic -/
inductive Failure where
  | error (location : LocationInfo) (kind : ErrorKind)
  | panic
deriving DecidableEq, Repr

def fmtErrMsg (location : LocationInfo) (message : String) : String :=
  "source: " ++ location.source.getD "Unknown" ++ ", line: " ++
    (location.sourceLine.map toString).getD "Unknown" ++ " - " ++ message

/-- `unwrap` of an optional value -/
def unwrap {α : Type} : Option α → Except Failure α
  | some a => .ok a
  | none => .error .panic

@[simp] theorem unwrap_some {α : Type} (a : α) : unwrap (some a) = .ok a := rfl
@[simp] theorem unwrap_none {α : Type} : unwrap (none : Option α) = .error .panic := rfl

theorem pure_eq_ok {α : Type} {a b : α} : (pure a : Except Failure α) = .ok b ↔ a = b :=
  ⟨fun h => Except.ok.inj h, fun h => congrArg Except.ok h⟩

theorem unwrap_eq_ok {α : Type} {o : Option α} {a : α} : unwrap o = .ok a ↔ o = some a := by
  cases o <;> simp

/-! ## Searching the end of a block -/

/-- the name tables of one search (`defs` and `blocks`) -/
structure Defs where
  starts : List String
  middles : List String
  ends : List String
  startBlocks : List String
  endBlocks : List String
deriving DecidableEq, Repr

/-- `{:?}` of a list of names -/
def debugNames (names : List String) : String := "[" ++ ", ".intercalate (names.map fun n => "\"" ++ n ++ "\"") ++ "]"

/-- the loop of `command_search` over the last `k` lines, from `line` on; `skipTo`, `blockDiff` and `mids` are its local
variables. The text of a `CommandSearchFailed` error is returned, its location is the caller's. -/
def searchLines (commands : List CommandPrototype) (d : Defs) (recurse : Bool) :
    (k line skipTo blockDiff : ℕ) → (mids : List ℕ) → Except String (Option (ℕ × List ℕ))
  | 0, _, _, _, _ => .error ("no end of structure for begin defs: " ++ debugNames d.starts)
  | k + 1, line, skipTo, blockDiff, mids =>
    if line < skipTo then searchLines commands d recurse k (line + 1) skipTo blockDiff mids
    else
      match (commands[line]?).bind (·.name) with
      | none => searchLines commands d recurse k (line + 1) skipTo blockDiff mids
      | some name =>
        if name ∈ d.startBlocks then searchLines commands d recurse k (line + 1) skipTo (blockDiff + 1) mids
        else if name ∈ d.middles then searchLines commands d recurse k (line + 1) skipTo blockDiff (mids ++ [line])
        else if name ∈ d.endBlocks ∧ 0 < blockDiff then
          searchLines commands d recurse k (line + 1) skipTo (blockDiff - 1) mids
        else if name ∈ d.ends then .ok (some (line, mids))
        else if name ∈ d.starts then
          if recurse then
            -- the recursive call has the same tables, so its two checks on them pass as they did here
            match searchLines commands d recurse k (line + 1) (line + 1) 0 [] with
            | .ok (some (e, _)) => searchLines commands d recurse k (line + 1) (e + 1) blockDiff mids
            | .ok none => .error ("bad nesting: got " ++ name ++ " but end not found")
            | .error e => .error e
          else .error ("bad nesting: got " ++ name)
        else searchLines commands d recurse k (line + 1) skipTo blockDiff mids

/-- `command_search`; the second of its two `constraints` is not read -/
def commandSearch (commands : List CommandPrototype) (start : ℕ) (d : Defs) (recurse : Bool) :
    Except String (Option (ℕ × List ℕ)) :=
  if d.starts = [] then .error "command search requires begin definitions to be non-empty"
  else if d.ends = [] then .error "command search requires ending definitions to be non-empty"
  else searchLines commands d recurse (commands.length - start) start start 0 []

/-! ## Name tables -/

def ifCommandNames : List String := ["if"]
def elseCommandNames : List String := ["else", "else_if"]
def endCommandNames : List String := ["end"]
def loopCommandNames : List String := ["loop", "while"]
def forInCommandNames : List String := ["for"]
def procedureCommandNames : List String := ["proc", "procedure"]
def stateCommandNames : List String := ["state"]
def componentCommandNames : List String := ["component"]
def machineCommandNames : List String := ["machine"]

def If.defs : Defs where
  starts := ifCommandNames
  middles := elseCommandNames
  ends := endCommandNames
  startBlocks := procedureCommandNames ++ forInCommandNames
  endBlocks := endCommandNames

def Loop.defs : Defs where
  starts := loopCommandNames
  middles := []
  ends := endCommandNames
  startBlocks := procedureCommandNames ++ forInCommandNames
  endBlocks := endCommandNames

def ForIn.defs : Defs where
  starts := forInCommandNames
  middles := []
  ends := endCommandNames
  startBlocks := ifCommandNames ++ elseCommandNames ++ forInCommandNames ++ procedureCommandNames
  endBlocks := endCommandNames

def Procedure.defs : Defs where
  starts := procedureCommandNames
  middles := []
  ends := endCommandNames
  startBlocks := ifCommandNames ++ elseCommandNames ++ forInCommandNames ++ stateCommandNames
  endBlocks := endCommandNames

def State.defs : Defs where
  starts := stateCommandNames
  middles := []
  ends := endCommandNames
  startBlocks :=
    ifCommandNames ++ elseCommandNames ++ forInCommandNames ++ procedureCommandNames ++ componentCommandNames
  endBlocks := endCommandNames

def ComponentBlock.defs : Defs where
  starts := componentCommandNames
  middles := []
  ends := endCommandNames
  startBlocks := ifCommandNames ++ elseCommandNames ++ forInCommandNames ++ procedureCommandNames ++ stateCommandNames
  endBlocks := endCommandNames

def MachineBlock.defs : Defs where
  starts := machineCommandNames
  middles := []
  ends := endCommandNames
  startBlocks := ifCommandNames ++ elseCommandNames ++ forInCommandNames ++ procedureCommandNames ++ stateCommandNames
  endBlocks := endCommandNames

/-! ## Commands -/

/-- the condition of an `if` -/
inductive Condition where
  | assertEqual (addr : Address) (right : Var)
  | booleanCheck (addr : Address)
  | boolValue (b : Bool)
deriving DecidableEq, Repr

/-- the condition of a loop -/
inductive BreakCondition where
  | none
  | boolValue (b : Bool)
deriving DecidableEq, Repr

structure ShortLocalAddress where
  comp : Option CompName
  varType : VarType
  varName : VarName
deriving DecidableEq, Repr

structure If where
  condition : Condition
  start : ℕ
  end_ : ℕ
  elseLines : List ℕ
deriving DecidableEq, Repr

structure Loop where
  breakCondition : BreakCondition
  start : ℕ
  end_ : ℕ
deriving DecidableEq, Repr

structure ForIn where
  start : ℕ
  end_ : ℕ
  target : ShortLocalAddress
  variable_ : ShortLocalAddress
deriving DecidableEq, Repr

structure Procedure where
  name : String
  startLine : ℕ
  endLine : ℕ
deriving DecidableEq, Repr

structure State where
  name : String
  startLine : ℕ
  endLine : ℕ
deriving DecidableEq, Repr

structure ComponentBlock where
  name : String
  sourceFile : Option String
  startLine : ℕ
  endLine : ℕ
deriving DecidableEq, Repr

structure MachineBlock where
  startLine : ℕ
  endLine : ℕ
deriving DecidableEq, Repr

structure Call where
  procName : String
deriving DecidableEq, Repr

/-- a command on one line, with the arguments it was read from -/
structure OneLine where
  name : String
  arguments : List String
deriving DecidableEq, Repr

inductive Command where
  | oneLine (cmd : OneLine)
  | registerVar (var : VarModel)
  | machine (cmd : MachineBlock)
  | state (cmd : State)
  | component (cmd : ComponentBlock)
  | if_ (cmd : If)
  | else_
  | end_
  | call (cmd : Call)
  | forIn (cmd : ForIn)
  | loop (cmd : Loop)
  | break_
  | procedure (cmd : Procedure)
deriving DecidableEq, Repr

/-! ## Building commands -/

/-- how the arguments of commands are read: `Address::from_str`, `Var::from_str`, `ShortLocalAddress::from_str`, the
options of `var`, the checks of the other one-line commands, and the text of `for` without arguments, which quotes the
line of the script's file -/
structure Readers where
  address : String → Except Failure Address
  value : String → Except Failure Var
  shortLocalAddress : LocationInfo → String → Except Failure ShortLocalAddress
  registerVar : List String → LocationInfo → Except Failure VarModel
  oneLine : OneLine → LocationInfo → Except Failure Unit
  formatErrNoArguments : LocationInfo → Except Failure String

variable (R : Readers)

/-- what a block's constructor makes of its search -/
def blockPositions (location : LocationInfo) (commands : List CommandPrototype) (line : ℕ) (d : Defs)
    (notFound : String) : Except Failure (ℕ × List ℕ) :=
  match commandSearch commands (line + 1) d true with
  | .ok (some positions) => .ok positions
  | .ok none => .error (.error location (.invalidCommandBody notFound))
  | .error e =>
    .error (.error location (.invalidCommandBody (fmtErrMsg location ("command search failed: " ++ e))))

def separatorSymbol : Char := '.'

/-- the condition of an `if` from its first argument and the others -/
def Condition.new (arg : String) (rest : List String) : Except Failure Condition :=
  if rest = [] ∧ separatorSymbol ∈ arg.toList then
    match R.address arg with
    | .ok addr => .ok (.booleanCheck addr)
    | .error _ => .error .panic
  else do
    let op ← unwrap rest[0]?
    if op = "==" then
      let addr ← R.address arg
      let right ← R.value (← unwrap rest[1]?)
      return .assertEqual addr right
    else
      return .boolValue (arg = "true")

def If.new (args : List String) (location : LocationInfo) (commands : List CommandPrototype) : Except Failure If :=
  match args with
  | [] => .error (.error location (.invalidCommandBody "no arguments provided"))
  | arg :: rest => do
    let line ← unwrap location.line
    let positions ← blockPositions location commands line If.defs "end of if/else block not found."
    let condition ← Condition.new R arg rest
    return { condition, start := line, end_ := positions.1, elseLines := positions.2 }

def BreakCondition.new : List String → Except Failure BreakCondition
  | [] => .ok .none
  | arg :: _ =>
    if arg = "true" then .ok (.boolValue true)
    else if arg = "false" then .ok (.boolValue false)
    else .error .panic

def Loop.new (args : List String) (location : LocationInfo) (commands : List CommandPrototype) :
    Except Failure Loop := do
  let line ← unwrap location.line
  let positions ← blockPositions location commands line Loop.defs "end of if/else block not found."
  let breakCondition ← BreakCondition.new args
  return { breakCondition, start := line, end_ := positions.1 }

/-- the variable and the target of a `for` -/
def ForIn.operands (args : List String) (location : LocationInfo) :
    Except Failure (ShortLocalAddress × ShortLocalAddress) := do
  let variable_ ← match args[0]? with
    | some arg => R.shortLocalAddress location arg
    | none => do
      let text ← R.formatErrNoArguments location
      .error (.error location (.invalidCommandBody text))
  let target ← match args[2]? with
    | some arg => R.shortLocalAddress location arg
    | none => .error (.error location (.invalidCommandBody "too few arguments?"))
  return (variable_, target)

def ForIn.new (args : List String) (location : LocationInfo) (commands : List CommandPrototype) :
    Except Failure ForIn := do
  let line ← unwrap location.line
  let operands ← ForIn.operands R args location
  let positions ← blockPositions location commands line ForIn.defs "End of forin block not found."
  return { start := line, end_ := positions.1, target := operands.2, variable_ := operands.1 }

def Procedure.new (args : List String) (location : LocationInfo) (commands : List CommandPrototype) :
    Except Failure Procedure := do
  let line ← unwrap location.line
  let positions ← blockPositions location commands line Procedure.defs "End of procedure block not found"
  let name ← unwrap args[0]?
  return { name, startLine := line, endLine := positions.1 }

def State.new (args : List String) (location : LocationInfo) (commands : List CommandPrototype) :
    Except Failure State := do
  let line ← unwrap location.line
  let positions ← blockPositions location commands line State.defs "end of state block not found"
  let name ← unwrap args[0]?
  return { name, startLine := line + 1, endLine := positions.1 }

def ComponentBlock.new (args : List String) (location : LocationInfo) (commands : List CommandPrototype) :
    Except Failure ComponentBlock := do
  let line ← unwrap location.line
  let positions ← blockPositions location commands line ComponentBlock.defs "end of component block not found"
  let name ← unwrap args[0]?
  return { name, sourceFile := location.source, startLine := line + 1, endLine := positions.1 }

def MachineBlock.new (location : LocationInfo) (commands : List CommandPrototype) : Except Failure MachineBlock := do
  let line ← unwrap location.line
  let positions ← blockPositions location commands line MachineBlock.defs "end of component block not found"
  return { startLine := line + 1, endLine := positions.1 }

def Call.new (args : List String) : Except Failure Call := do
  let procName ← unwrap args[0]?
  return { procName }

/-- the commands on one line, besides `var`, `call`, `else`, `end` and `break` -/
def oneLineNames : List String :=
  ["print", "set", "spawn", "invoke", "query", "entity", "prefab", "trigger", "triggered_by", "goto", "eval"]

/-- `Command::from_prototype` -/
def Command.fromPrototype (proto : CommandPrototype) (location : LocationInfo) (commands : List CommandPrototype) :
    Except Failure Command :=
  let args := proto.arguments.getD []
  match proto.name with
  | none => .error (.error location .noCommandPresent)
  | some name =>
    if name ∈ oneLineNames then do
      R.oneLine ⟨name, args⟩ location
      return .oneLine ⟨name, args⟩
    else if name = "var" then return .registerVar (← R.registerVar args location)
    else if name = "machine" then return .machine (← MachineBlock.new location commands)
    else if name = "component" ∨ name = "comp" then return .component (← ComponentBlock.new args location commands)
    else if name = "state" then return .state (← State.new args location commands)
    else if name = "if" then return .if_ (← If.new R args location commands)
    else if name = "else" then return .else_
    else if name = "proc" ∨ name = "procedure" then return .procedure (← Procedure.new args location commands)
    else if name = "call" then return .call (← Call.new args)
    else if name = "end" then return .end_
    else if name = "for" then return .forIn (← ForIn.new R args location commands)
    else if name = "loop" ∨ name = "while" then return .loop (← Loop.new args location commands)
    else if name = "break" then return .break_
    else .error (.error location (.unknownCommand name))

end BigWorlds.Machine
