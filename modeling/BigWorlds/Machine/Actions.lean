/-
The commands on one line (`machine/cmd/print.rs`, `set.rs`, `eval.rs`, `goto.rs`, `invoke.rs`, `spawn.rs`, `register.rs`,
`query.rs`): how they are made from their arguments, and what they ask of the worker.

Making them and running them both can fail by a panic. Options are read by a library, as are expressions and floats.

- `Libraries.readers`: the readers that `from_script` uses;
- `Action.execute`: what a command does with the worker's answers, none if it panics.
-/
import BigWorlds.Core.Bytes
import BigWorlds.Machine.Execution
import BigWorlds.Text.Address
import BigWorlds.Text.Value

namespace BigWorlds.Machine

open BigWorlds.Core (split cut utf8Length insertStr)

/-! ## Libraries -/

/-- what options were given: the arguments that are none, and the values of an option by its long name -/
structure Matches where
  free : List String
  values : String → List String

structure Libraries where
  /-- `shlex::split` -/
  shlex : String → Option (List String)
  /-- `getopts::Options::parse` with the short and long names of the options, or the text of its error -/
  getopts : List (String × String) → List String → Except String Matches
  /-- how floats and nested values are formatted -/
  format : Var → String
  /-- `str::parse::<f32>` -/
  parseFloat : String → Option UInt32
  /-- the text of the error for a value that is not read -/
  invalidValue : String → String
  /-- `fasteval`: the value of an expression as text, none if it is not parsed or not evaluated -/
  evaluate : String → List (String × Var) → Option String
  /-- the text of `format_err_no_arguments` with a line of a file, none if the file has no such line -/
  quoteLine : String → ℕ → Option String

variable (L : Libraries)

/-- `parse(args)` with an error that has the location -/
def Libraries.parseAt (location : LocationInfo) (options : List (String × String)) (args : List String) :
    Except Failure Matches :=
  match L.getopts options args with
  | .ok matched => .ok matched
  | .error text => .error (.error location (.parseError text))

/-- `parse(args)?` -/
def Libraries.parse (options : List (String × String)) (args : List String) : Except Failure Matches :=
  L.parseAt .empty options args

/-- `Display` of the errors of reading an address -/
def addressText : AddressFailure → String
  | .invalidLocalAddress text => "invalid local address: " ++ text
  | .failedCreatingAddress text => "failed creating address from string: " ++ text
  | .panic => ""

/-- an address that is read, or its error made one of the machine by `?` -/
def addressResult {α : Type} : Except AddressFailure α → Except Failure α
  | .ok a => .ok a
  | .error .panic => .error .panic
  | .error e => .error (.error .empty (.coreError (addressText e)))

/-- an address that is read if it is there -/
def optionalAddress {α : Type} (fromStr : String → Except AddressFailure α) : Option String → Except Failure (Option α)
  | some s => (addressResult (fromStr s)).map some
  | none => .ok none

/-- a value that is read, or its error made one of the machine by `?` -/
def valueResult (s : String) : Except ValueFailure Var → Except Failure Var
  | .ok v => .ok v
  | .error .panic => .error .panic
  | .error .invalid => .error (.error .empty (.coreError (L.invalidValue s)))

/-! ## Making commands -/

structure PrintFmt where
  fmt : String
  inserts : List (ℕ × Address)
deriving DecidableEq, Repr

/-- the loop of `from_args`, which takes a pair of braces out in every turn, `k` turns at most; none panics -/
def PrintFmt.template (free : List String) : (k : ℕ) → List Char → (count : ℕ) → List (ℕ × Address) → Option PrintFmt
  | 0, fmt, _, inserts => some ⟨String.ofList fmt, inserts⟩
  | k + 1, fmt, count, inserts =>
    match cut ['{', '}'] fmt with
    | none => some ⟨String.ofList fmt, inserts⟩
    | some (before, after) =>
      match free[count]?.map Address.fromStr with
      | some (.error .panic) => none
      | some (.ok addr) =>
        template free k (before ++ after) (count + 1) (inserts ++ [(utf8Length before, addr)])
      | _ => template free k (before ++ after) (count + 1) inserts

def PrintFmt.fromArgs (args : List String) : Except Failure PrintFmt := do
  let matched ← L.parse [] args
  let first ← unwrap matched.free[0]?
  match Address.fromStr first with
  | .ok addr => return ⟨"", [(0, addr)]⟩
  | .error .panic => .error .panic
  | .error _ => unwrap (PrintFmt.template matched.free first.length first.toList 1 [])

/-- the target of `set` -/
inductive Target where
  | address (addr : Address)
  | localAddress (addr : ShortLocalAddress)
deriving DecidableEq, Repr

/-- an address in two, three or four parts; a type that is not read and any other number of parts panic -/
def Target.ofParts : List String → Option Target
  | [varType, varName] => do return .localAddress ⟨none, ← VarType.fromStr varType, varName⟩
  | [comp, varType, varName] => do return .localAddress ⟨some comp, ← VarType.fromStr varType, varName⟩
  | [entity, comp, varType, varName] => do return .address ⟨entity, comp, ← VarType.fromStr varType, varName⟩
  | _ => none

def Target.fromStr (s : String) (location : LocationInfo) : Except Failure Target :=
  if separatorSymbol ∈ s.toList then unwrap (Target.ofParts (split separatorSymbol s))
  else .error (.error location (.other "failed parsing set.target"))

def Target.varType : Target → VarType
  | .address a => a.varType
  | .localAddress a => a.varType

/-- the source of `set` -/
inductive Source where
  | address (addr : Address)
  | localAddress (addr : ShortLocalAddress)
  | value (v : Var)
deriving DecidableEq, Repr

def Source.ofTarget : Target → Source
  | .address a => .address a
  | .localAddress a => .localAddress a

def Source.fromStr (s : String) (targetType : VarType) (location : LocationInfo) : Except Failure Source :=
  if separatorSymbol ∈ s.toList then (unwrap (Target.ofParts (split separatorSymbol s))).map Source.ofTarget
  else
    match Var.fromStrTyped L.parseFloat s targetType with
    | .ok v => .ok (.value v)
    | .error .panic => .error .panic
    | .error .invalid =>
      .error (.error location
        (.invalidCommandBody ("can't parse from source into target type: " ++ L.invalidValue s)))

structure Set where
  target : Target
  source : Source
  out : Option ShortLocalAddress
deriving DecidableEq, Repr

/-- the text of the source: after `=`, or the second argument, or nothing -/
def Set.sourceStr (args : List String) : Except Failure String :=
  match args[1]? with
  | none => .ok ""
  | some arg => if arg = "=" then unwrap args[2]? else .ok arg

/-- the output address after `=>` -/
def Set.outAddr : List String → Option String
  | "=>" :: rest => rest.head?
  | _ :: rest => outAddr rest
  | [] => none

def Set.new (args : List String) (location : LocationInfo) : Except Failure Set := do
  let first ← unwrap args[0]?
  let target ← Target.fromStr first location
  let sourceStr ← Set.sourceStr args
  let source ← Source.fromStr L sourceStr target.varType location
  let out ← optionalAddress ShortLocalAddress.fromStr (Set.outAddr args)
  return { target, source, out }

structure Eval where
  expr : String
  args : List (String × Address)
  out : Option Address
deriving DecidableEq, Repr

/-- the arguments of the form `name=address`, the others left out -/
def Eval.arguments : List String → Except Failure (List (String × Address))
  | [] => .ok []
  | arg :: rest =>
    match split '=' arg with
    | [name, addr] => do
      let addr ← addressResult (Address.fromStr addr)
      let rest ← arguments rest
      return (name, addr) :: rest
    | _ => arguments rest

def Eval.new (args : List String) : Except Failure Eval := do
  let matched ← L.parse [("o", "out")] args
  let out ← optionalAddress Address.fromStr (matched.values "out").head?
  let evalArgs ← Eval.arguments matched.free.tail
  let expr ← unwrap matched.free[0]?
  return { expr, args := evalArgs, out }

structure Spawn where
  prefab_ : Option PrefabName
  spawnName : Option EntityName
  out : Option ShortLocalAddress
deriving DecidableEq, Repr

/-- the names from the arguments, of which `n` are no options -/
def Spawn.ofFree (args : List String) (out : Option ShortLocalAddress) (location : LocationInfo) :
    (n : ℕ) → Except Failure Spawn
  | 0 => .ok { prefab_ := none, spawnName := none, out }
  | 1 => do return { prefab_ := some (← unwrap args[0]?), spawnName := none, out }
  | 2 => do return { prefab_ := some (← unwrap args[0]?), spawnName := some (← unwrap args[1]?), out }
  | _ => .error (.error location (.invalidCommandBody "can't accept more than 2 arguments"))

def Spawn.new (args : List String) (location : LocationInfo) : Except Failure Spawn := do
  let matched ← L.parseAt location [("o", "out")] args
  let out ← optionalAddress ShortLocalAddress.fromStr (matched.values "out").head?
  Spawn.ofFree args out location matched.free.length

structure RegisterEntityPrefab where
  name : PrefabName
  components : List CompName
  setters : List (LocalAddress × Var)
deriving DecidableEq, Repr

/-- one value of the option `set`; every way to fail is unwrapped -/
def RegisterEntityPrefab.setter (s : String) : Option (LocalAddress × Var) := do
  let (a, b) ← cut ['='] s.toList
  match LocalAddress.fromStr (String.ofList a), Var.fromStrUntyped (String.ofList b) with
  | .ok addr, .ok v => return (addr, v)
  | _, _ => none

def RegisterEntityPrefab.new (args : List String) : Except Failure RegisterEntityPrefab := do
  let matched ← L.parse [("c", "component"), ("", "set")] args
  let name ← unwrap args[0]?
  let setters ← unwrap ((matched.values "set").mapM RegisterEntityPrefab.setter)
  return { name, components := matched.values "component", setters }

/-- `RegisterVar::new`, with the variable it registers when it is executed -/
def RegisterVar.new (args : List String) (location : LocationInfo) : Except Failure VarModel :=
  match L.getopts [("", "default")] args with
  | .error _ => .error .panic
  | .ok matched =>
    match matched.free with
    | [] => .error (.error location (.invalidCommandBody "Must provide variable address as free arg"))
    | first :: _ =>
      let val := ((matched.values "default").head?.bind L.parseFloat).map Var.float
      match ShortLocalAddress.fromStr first with
      | .ok addr => .ok ⟨addr.varName, addr.varType, val⟩
      | .error .panic => .error .panic
      | .error e => .error (.error location (.invalidCommandBody (addressText e)))

/-- a command on one line -/
inductive Action where
  | printFmt (cmd : PrintFmt)
  | set (cmd : Set)
  | spawn (cmd : Spawn)
  | invoke (events : List EventName)
  | query
  | registerEntityPrefab (cmd : RegisterEntityPrefab)
  | registerTrigger (name : String)
  | goto (targetState : String)
  | eval (cmd : Eval)
deriving DecidableEq, Repr

/-- the arms of `Command::from_prototype` for the commands on one line -/
def OneLine.action (cmd : OneLine) (location : LocationInfo) : Except Failure Action :=
  match cmd.name with
  | "print" => do return .printFmt (← PrintFmt.fromArgs L cmd.arguments)
  | "set" => do return .set (← Set.new L cmd.arguments location)
  | "spawn" => do return .spawn (← Spawn.new L cmd.arguments location)
  | "invoke" => .ok (.invoke cmd.arguments)
  | "query" => .ok .query
  | "entity" | "prefab" => do return .registerEntityPrefab (← RegisterEntityPrefab.new L cmd.arguments)
  | "trigger" | "triggered_by" => do return .registerTrigger (← unwrap cmd.arguments[0]?)
  | "goto" => do return .goto (← unwrap cmd.arguments[0]?)
  | "eval" => do return .eval (← Eval.new L cmd.arguments)
  | _ => .error (.error location (.unknownCommand cmd.name))

/-- `format_err_no_arguments` -/
def Libraries.formatErrNoArguments (location : LocationInfo) : Except Failure String := do
  let startLine ← unwrap location.sourceLine
  let source ← unwrap location.source
  unwrap (L.quoteLine source startLine)

/-- how the arguments of commands are read -/
def Libraries.readers : Readers where
  address s := addressResult (Address.fromStr s)
  value s := valueResult L s (Var.fromStrUntyped s)
  shortLocalAddress location s :=
    match ShortLocalAddress.fromStr s with
    | .ok addr => .ok addr
    | .error .panic => .error .panic
    | .error e => .error (.error location (.invalidAddress (addressText e)))
  registerVar args location := RegisterVar.new L args location
  oneLine cmd location := (cmd.action L location).map fun _ => ()
  formatErrNoArguments := L.formatErrNoArguments

/-! ## Running commands -/

/-- what a request to the worker comes back with -/
inductive Answer where
  /-- the request did not get through -/
  | failed
  /-- the worker returned an error -/
  | refused
  | var (v : Var)
  | empty
  | other
deriving DecidableEq, Repr

/-- the answers to the requests of one turn, in their order -/
abbrev Answers := ℕ → Answer

/-- `Machine::get_var`: a value, or (none) an error; another response panics -/
def Answer.getVar : Answer → Option (Option Var)
  | .var v => some (some v)
  | .failed | .refused => some none
  | .empty | .other => none

/-- `Machine::set_var`, unwrapped -/
def Answer.setVar : Answer → Option Unit
  | .empty => some ()
  | _ => none

/-- the loop of `PrintFmt::execute`, where `added` bytes have been inserted and the `n`th answer is the next -/
def PrintFmt.insertAll (ans : Answers) : List (ℕ × Address) → (n added : ℕ) → List Char → Option (List Char)
  | [], _, _, output => some output
  | (index, _) :: inserts, n, added, output => do
    match ← (ans n).getVar with
    | some v =>
      let text := (v.toString L.format).toList
      insertAll ans inserts (n + 1) (added + utf8Length text) (← insertStr output (index + added) text)
    | none => insertAll ans inserts (n + 1) added output

/-- the result of a command: whether it is an error -/
abbrev Ran := Option Bool

def PrintFmt.execute (cmd : PrintFmt) (ans : Answers) : Ran := do
  let _ ← insertAll L ans cmd.inserts 0 0 cmd.fmt.toList
  return false

def Set.execute (cmd : Set) (ans : Answers) : Ran :=
  match cmd.target with
  | .localAddress _ => none
  | .address _ =>
    match cmd.source with
    | .value _ => do
      let _ ← (ans 0).setVar
      return false
    -- the address of a local source is made up, and what it reads is unwrapped
    | .address _ | .localAddress _ => do
      let _ ← (← (ans 0).getVar)
      let _ ← (ans 1).setVar
      return false

/-- the arguments of an expression with their values; none of the inner one is an error, of the outer one a panic -/
def Eval.values (ans : Answers) : List (String × Address) → (n : ℕ) → Option (Option (List (String × Var)))
  | [], _ => some (some [])
  | (name, _) :: args, n => do
    match ← (ans n).getVar with
    | some v => return (← Eval.values ans args (n + 1)).map ((name, v) :: ·)
    | none => return none

/-- the output variable is set to the value -/
def Eval.finish (cmd : Eval) (ans : Answers) (val : String) : Ran :=
  match cmd.out with
  | none => some false
  | some out =>
    match Var.fromStrTyped L.parseFloat val out.varType with
    | .error _ => none
    | .ok _ => do
      let _ ← (ans cmd.args.length).setVar
      return false

def Eval.execute (cmd : Eval) (ans : Answers) : Ran := do
  match ← Eval.values ans cmd.args 0 with
  | none => return true
  | some ns =>
    let val ← L.evaluate cmd.expr ns
    cmd.finish L ans val

def Spawn.execute (_ : Spawn) (ans : Answers) : Ran :=
  match ans 0 with
  | .empty => some false
  | .failed | .refused => some true
  | .var _ | .other => none

/-- the request is unwrapped, the worker's answer to it is not looked at -/
def RegisterEntityPrefab.execute (_ : RegisterEntityPrefab) (ans : Answers) : Ran :=
  match ans 0 with
  | .failed => none
  | _ => some false

def Action.execute (ans : Answers) : Action → Ran
  | .printFmt cmd => cmd.execute L ans
  | .set cmd => cmd.execute ans
  | .spawn cmd => cmd.execute ans
  | .registerEntityPrefab cmd => cmd.execute ans
  | .eval cmd => cmd.execute L ans
  -- events are invoked by a task of their own, and the dispatch table has no case for `query` and `trigger`
  | .goto _ | .invoke _ | .query | .registerTrigger _ => some false

/-- a turn in which the worker gives the answers -/
def Libraries.world (ans : Answers) : World where
  getVar _ := (ans 0).getVar.join
  reply cmd :=
    match cmd.action L .empty with
    | .ok action => action.execute L ans
    | .error _ => some false

end BigWorlds.Machine
