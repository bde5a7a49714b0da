/-
Executing a script (`machine/exec.rs`, `machine/cmd/mod.rs` `Command::execute`, `machine/cmd/flow/`).

The commands stand in one list and control is a line number and a call stack of at most 32 frames, here with its top
first. The dispatch table has no case for `else`, `for`, `break`, machine blocks, `query` and `trigger`: executing one
of them logs a warning and goes on. A step that panics ends the execution, as does leaving the commands of the state.

- `Logic.fromPrototypes`: the second half of `Logic::from_script`, from the prototypes on;
- `step`: one turn of the loop in `exec::execute`; what the worker and the readers of variables answer in that turn is
  the turn's `World`;
- `step_cases`: a turn halts the execution where it is, or executes the command at the current line.
-/
import BigWorlds.Core.Run
import BigWorlds.Machine.Command

namespace BigWorlds.Machine

/-! ## Values in conditions -/

/-- `==` of 32-bit floats, given by their bits -/
def floatEq (a b : UInt32) : Bool :=
  let nan (x : UInt32) : Bool := decide (0x7F800000 < x &&& 0x7FFFFFFF)
  !nan a && !nan b && (a == b || (a ||| b) &&& 0x7FFFFFFF == 0)

/-- `> 0.` of a 32-bit float, given by its bits -/
def floatPositive (a : UInt32) : Bool := decide (0 < a) && decide (a ≤ 0x7F800000)

mutual

/-- `PartialEq` of values -/
def varEq : Var → Var → Bool
  | .string a, .string b => a == b
  | .int a, .int b => a == b
  | .float a, .float b => floatEq a b
  | .bool a, .bool b => a == b
  | .byte a, .byte b => a == b
  | .vec2 a b, .vec2 c d => floatEq a c && floatEq b d
  | .vec3 a b c, .vec3 d e f => floatEq a d && floatEq b e && floatEq c f
  | .list a, .list b => varEqList a b
  | .grid a, .grid b => varEqGrid a b
  | .map a, .map b => varEqMap a b
  | _, _ => false

def varEqList : List Var → List Var → Bool
  | [], [] => true
  | a :: as, b :: bs => varEq a b && varEqList as bs
  | _, _ => false

def varEqGrid : List (List Var) → List (List Var) → Bool
  | [], [] => true
  | a :: as, b :: bs => varEqList a b && varEqGrid as bs
  | _, _ => false

def varEqMap : List (String × Var) → List (String × Var) → Bool
  | [], [] => true
  | (k, a) :: as, (l, b) :: bs => k == l && varEq a b && varEqMap as bs
  | _, _ => false

end

/-- `Var::to_bool` -/
def varToBool : Var → Bool
  | .string v => !v.isEmpty
  | .int v => decide (0 < v)
  | .float v => floatPositive v
  | .bool v => v
  | .byte v => decide (0 < v)
  | .vec2 v₁ v₂ => floatPositive v₁ && floatPositive v₂
  | .vec3 v₁ v₂ v₃ => floatPositive v₁ && floatPositive v₂ && floatPositive v₃
  | .list v => !v.isEmpty
  | .grid v => !v.isEmpty
  | .map v => !v.isEmpty

/-! ## Call stack -/

structure ProcedureCallInfo where
  callLine : ℕ
  startLine : ℕ
  endLine : ℕ
deriving DecidableEq, Repr

structure ForInCallInfo where
  target : Option LocalAddress
  targetLen : ℕ
  variable_ : Option LocalAddress
  iteration : ℕ
  start : ℕ
  end_ : ℕ
deriving DecidableEq, Repr

structure LoopCallInfo where
  start : ℕ
  end_ : ℕ
deriving DecidableEq, Repr

structure IfElseMetaData where
  start : ℕ
  end_ : ℕ
  elseLines : List ℕ
deriving DecidableEq, Repr

structure IfElseCallInfo where
  current : ℕ
  passed : Bool
  elseLineIndex : ℕ
  meta_ : IfElseMetaData
deriving DecidableEq, Repr

structure ComponentCallInfo where
  name : CompName
  vars : List VarModel
  startLine : ℕ
  endLine : ℕ
deriving DecidableEq, Repr

inductive CallInfo where
  | procedure (ci : ProcedureCallInfo)
  | forIn (ci : ForInCallInfo)
  | loop (ci : LoopCallInfo)
  | ifElse (ci : IfElseCallInfo)
  | component (ci : ComponentCallInfo)
deriving DecidableEq, Repr

def callStackCapacity : ℕ := 32

/-- `ArrayVec::push`, which panics when the stack is full -/
def push (stack : List CallInfo) (ci : CallInfo) : Option (List CallInfo) :=
  if stack.length < callStackCapacity then some (ci :: stack) else none

/-! ## Logic -/

structure Logic where
  startState : String
  commands : List Command
  /-- start and end lines of the states by name, the last inserted first -/
  states : List (String × ℕ × ℕ)
  /-- start and end lines of the procedures by name, the last inserted first -/
  procedures : List (String × ℕ × ℕ)
  cmdLocationMap : List LocationInfo
deriving DecidableEq, Repr

def startStateName : String := "start"

def Logic.default : Logic := ⟨startStateName, [], [], [], []⟩

def Logic.add (logic : Logic) (command : Command) (location : LocationInfo) : Logic where
  startState := logic.startState
  commands := logic.commands ++ [command]
  states := match command with
    | .state cmd => (cmd.name, cmd.startLine, cmd.endLine) :: logic.states
    | _ => logic.states
  procedures := match command with
    | .procedure cmd => (cmd.name, cmd.startLine, cmd.endLine) :: logic.procedures
    | _ => logic.procedures
  cmdLocationMap := logic.cmdLocationMap ++ [location]

@[simp] theorem Logic.add_commands (logic : Logic) (command : Command) (location : LocationInfo) :
    (logic.add command location).commands = logic.commands ++ [command] := rfl

@[simp] theorem Logic.add_cmdLocationMap (logic : Logic) (command : Command) (location : LocationInfo) :
    (logic.add command location).cmdLocationMap = logic.cmdLocationMap ++ [location] := rfl

/-- the loop of `from_script` over the prototypes from line `n` on -/
def Logic.load (R : Readers) (protos : List CommandPrototype) (locations : ℕ → LocationInfo) :
    List CommandPrototype → ℕ → Logic → Except Failure Logic
  | [], _, logic => .ok logic
  | proto :: rest, n, logic => do
    let command ← Command.fromPrototype R proto (locations n) protos
    Logic.load R protos locations rest (n + 1) (logic.add command (locations n))

/-- `Logic::from_script` from the prototypes on; `locations` are those of the instructions, with the command's index as
`line` and the script's path as `source` -/
def Logic.fromPrototypes (R : Readers) (protos : List CommandPrototype) (locations : ℕ → LocationInfo) :
    Except Failure Logic := do
  let logic ← Logic.load R protos locations protos 0 Logic.default
  return { logic with states := ("_main", 0, logic.commands.length) :: logic.states }

/-! ## Commands -/

inductive CommandResult where
  | continue_
  | jumpToLine (n : ℕ)
  | err
deriving DecidableEq, Repr

/-- what is answered in one turn: variables that are read (none: the request failed), and how a one-line command ends
(none: it panics; else whether it returns an error) -/
structure World where
  getVar : Address → Option Var
  reply : OneLine → Option Bool

def Condition.evaluate (w : World) : Condition → Option Bool
  | .assertEqual addr right => (w.getVar addr).map fun left => varEq left right
  | .booleanCheck addr => (w.getVar addr).map varToBool
  | .boolValue b => some b

/-- the result of a command and the call stack after it; none is a panic -/
abbrev Executed := Option (CommandResult × List CallInfo)

/-- the `else` lines as an array of ten, filled up with zeros; an eleventh line is out of bounds -/
def elseLinesArr (elseLines : List ℕ) : Option (List ℕ) :=
  if elseLines.length ≤ 10 then some (elseLines ++ List.replicate (10 - elseLines.length) 0) else none

def If.execute (cmd : If) (w : World) (stack : List CallInfo) : Executed := do
  let elseLines ← elseLinesArr cmd.elseLines
  let info (current : ℕ) (passed : Bool) : CallInfo :=
    .ifElse ⟨current, passed, 0, ⟨cmd.start, cmd.end_, elseLines⟩⟩
  match ← cmd.condition.evaluate w with
  | true =>
    let stack ← push stack (info (cmd.elseLines.head?.getD cmd.end_) true)
    return (.continue_, stack)
  | false =>
    match cmd.elseLines with
    | [] => return (.jumpToLine (cmd.end_ + 1), stack)
    | gotoLine :: _ =>
      let stack ← push stack (info gotoLine false)
      return (.jumpToLine gotoLine, stack)

def Loop.executeLoc (cmd : Loop) (stack : List CallInfo) : Executed := do
  let stack ← push stack (.loop ⟨cmd.start, cmd.end_⟩)
  return (.continue_, stack)

/-- `ForIn::update_variable`, which is unimplemented for an integer variable -/
def ForIn.updateVariable (variable_ : LocalAddress) : Option Unit :=
  if variable_.varType = .int then none else some ()

/-- what `end` does to a `for` on top of the stack, before it decides whether to pop it -/
def ForInCallInfo.next (ci : ForInCallInfo) (rest : List CallInfo) : Executed := do
  match ci.target, ci.variable_ with
  | some _, some variable_ => ForIn.updateVariable variable_
  | some _, none => none
  | none, _ => some ()
  return (.jumpToLine (ci.start + 1), .forIn { ci with iteration := ci.iteration + 1 } :: rest)

def End.execute (location : LocationInfo) (stack : List CallInfo) : Executed :=
  match stack with
  | [] => some (.continue_, stack)
  | .forIn ci :: rest => if ci.iteration < ci.targetLen then ci.next rest else some (.continue_, rest)
  | .ifElse _ :: _ => some (.continue_, stack)
  | .loop ci :: _ => some (.jumpToLine (ci.start + 1), stack)
  | .procedure ci :: rest => do
    let line ← location.line
    return if ci.endLine = line then (.jumpToLine (ci.callLine + 1), rest) else (.continue_, rest)
  -- the component is merged into the model of the worker; the answer is not looked at
  | .component _ :: rest => some (.continue_, rest)

def Call.execute (cmd : Call) (logic : Logic) (location : LocationInfo) (stack : List CallInfo) : Executed := do
  let lines ← logic.procedures.lookup cmd.procName
  match location.line with
  | none => return (.err, stack)
  | some line =>
    let stack ← push stack (.procedure ⟨line, lines.1, lines.2⟩)
    return (.jumpToLine (lines.1 + 1), stack)

def Procedure.execute (cmd : Procedure) (stack : List CallInfo) : Executed :=
  some (.jumpToLine (cmd.endLine + 1), stack)

def State.execute (cmd : State) (stack : List CallInfo) : Executed :=
  some (.jumpToLine (cmd.endLine + 1), stack)

def ComponentBlock.execute (cmd : ComponentBlock) (stack : List CallInfo) : Executed := do
  let stack ← push stack (.component ⟨cmd.name, [], cmd.startLine, cmd.endLine⟩)
  return (.continue_, stack)

/-- `RegisterVar::execute`: the variable goes to the component on top of the stack, if one is -/
def RegisterVar.execute (var : VarModel) (stack : List CallInfo) : List CallInfo :=
  match stack with
  | .component ci :: rest => .component { ci with vars := ci.vars ++ [var] } :: rest
  | stack => stack

/-- `Command::execute` -/
def Command.execute (logic : Logic) (w : World) (location : LocationInfo) (stack : List CallInfo) :
    Command → Executed
  | .oneLine cmd => (w.reply cmd).map fun err => (if err then .err else .continue_, stack)
  | .registerVar var => some (.continue_, RegisterVar.execute var stack)
  | .call cmd => cmd.execute logic location stack
  | .if_ cmd => cmd.execute w stack
  | .loop cmd => cmd.executeLoc stack
  | .end_ => End.execute location stack
  | .procedure cmd => cmd.execute stack
  | .state cmd => cmd.execute stack
  | .component cmd => cmd.execute stack
  -- `_ =>` unable to execute
  | .else_ | .forIn _ | .break_ | .machine _ => some (.continue_, stack)

/-! ## The loop -/

structure Config where
  line : ℕ
  stack : List CallInfo
  halted : Bool
deriving DecidableEq, Repr

def Config.halt (c : Config) : Config := { c with halted := true }

/-- the line to go on at -/
def nextLine (line : ℕ) : CommandResult → ℕ
  | .jumpToLine n => n
  | .continue_ | .err => line + 1

/-- where the loop takes the location of a line from -/
def Logic.location (logic : Logic) (line : ℕ) : LocationInfo :=
  logic.cmdLocationMap[line]?.getD { LocationInfo.empty with line := some 0 }

/-- one turn of the loop in `exec::execute`, `stop` being the end of the state -/
def step (logic : Logic) (stop : ℕ) (c : Config) (w : World) : Config :=
  if c.halted then c
  else
    match logic.commands[c.line]? with
    | none => c.halt
    | some command =>
      if c.stack = [] ∧ stop ≤ c.line then c.halt
      else
        match command.execute logic w (logic.location c.line) c.stack with
        | none => c.halt
        | some (result, stack) => ⟨nextLine c.line result, stack, false⟩

/-- execution in a state starts at its first line with an empty stack -/
def Config.start (start : ℕ) : Config := ⟨start, [], false⟩

end BigWorlds.Machine
