/-
The task of a machine (`machine/mod.rs` `spawn`): the two requests that make it run its script, `Step` of its own
interface and `Event` of every behavior.

Both ask the worker for the logic and execute it in the current state of the machine. Only `Step` goes to the state
`_main`, which is the whole script, if that is the one state of the logic. An error in either ends the task.

- `turn_config`: a turn of the running task is a turn of the execution;
- `handle_agree_iff`: from the same machine and the same answer, both do the same, turn for turn, exactly if there is no
  one state `Step` would go to and `Event` would not.
-/
import BigWorlds.Machine.Script

namespace BigWorlds.Machine

set_option linter.dupNamespace false in
structure Machine where
  behavior : Option String
  /-- current state -/
  state : String
deriving DecidableEq, Repr

/-- what the worker answers to the request for the logic -/
inductive LogicReply where
  | failed
  | unexpected
  | machineLogic (logic : Logic)
deriving DecidableEq, Repr

inductive Task where
  /-- waiting for a request -/
  | waiting (m : Machine)
  /-- executing the logic up to the line where the state ends -/
  | running (m : Machine) (logic : Logic) (stop : ℕ) (c : Config)
  /-- an error has left the loop -/
  | ended
  | panicked
deriving DecidableEq, Repr

/-- the number of states, as a hash map counts them -/
def Logic.statesLen (logic : Logic) : ℕ := (logic.states.map Prod.fst).dedup.length

/-- `exec::execute` up to its loop -/
def execute (logic : Logic) (m : Machine) : Task :=
  match logic.states.lookup m.state with
  | some (start, stop) => .running m logic stop (Config.start start)
  | none => .ended

/-- `machine::Request::Step` -/
def handleStep (m : Machine) (reply : LogicReply) : Task :=
  match m.behavior with
  | none => .waiting m
  | some _ =>
    match reply with
    | .failed => .ended
    | .unexpected => .panicked
    | .machineLogic logic => execute logic (if logic.statesLen = 1 then { m with state := "_main" } else m)

/-- `behavior::Request::Event` -/
def handleEvent (m : Machine) (reply : LogicReply) : Task :=
  match m.behavior with
  | none => .waiting m
  | some _ =>
    match reply with
    | .failed => .ended
    | .unexpected => .panicked
    | .machineLogic logic => execute logic m

/-- what a command does to the current state: only `goto` changes it -/
def Command.goto (m : Machine) : Command → Machine
  | .oneLine ⟨"goto", targetState :: _⟩ => { m with state := targetState }
  | _ => m

/-- one turn of the task while it executes -/
def Task.turn : Task → World → Task
  | .running m logic stop c, w =>
    match logic.commands[c.line]? with
    | none => .waiting m
    | some command =>
      if c.stack = [] ∧ stop ≤ c.line then .waiting m
      else
        match command.execute logic w (logic.location c.line) c.stack with
        | none => .panicked
        | some (result, stack) => .running (command.goto m) logic stop ⟨nextLine c.line result, stack, false⟩
  | task, _ => task

/-- a turn of the task is a turn of the execution, which halts when the task runs no more -/
theorem turn_config (m : Machine) (logic : Logic) (stop : ℕ) {c : Config} (hc : c.halted = false) (w : World) :
    match Task.turn (.running m logic stop c) w with
    | .running _ logic' stop' c' => logic' = logic ∧ stop' = stop ∧ c' = step logic stop c w
    | _ => step logic stop c w = c.halt := by
  simp only [Task.turn, step, hc]
  cases logic.commands[c.line]? with
  | none => rfl
  | some command =>
    by_cases hstop : c.stack = [] ∧ stop ≤ c.line
    · simp [hstop]
    · dsimp only
      rw [if_neg hstop, if_neg hstop]
      cases command.execute logic w (logic.location c.line) c.stack with
      | none => rfl
      | some r => exact ⟨rfl, rfl, rfl⟩

/-! ## The two requests -/

/-- the two requests run the same commands and leave the task the same, whatever is answered while it executes -/
def Agree (m : Machine) (reply : LogicReply) : Prop :=
  ∀ ws : List World, Core.run Task.turn (handleStep m reply) ws = Core.run Task.turn (handleEvent m reply) ws

/-- the machine runs no script, or gets no logic, or the logic has more states than one, or the machine is in the state
`_main`, or neither that state nor the current one is declared -/
def Driven (m : Machine) (reply : LogicReply) : Prop :=
  match m.behavior, reply with
  | some _, .machineLogic logic =>
    logic.statesLen ≠ 1 ∨ m.state = "_main" ∨
      logic.states.lookup "_main" = none ∧ logic.states.lookup m.state = none
  | _, _ => True

theorem execute_eq_iff (logic : Logic) (m' m : Machine) (h : m'.behavior = m.behavior) :
    execute logic m' = execute logic m ↔
      m'.state = m.state ∨ logic.states.lookup m'.state = none ∧ logic.states.lookup m.state = none := by
  unfold execute
  constructor
  · intro heq
    cases hs' : logic.states.lookup m'.state with
    | none =>
      cases hs : logic.states.lookup m.state with
      | none => exact Or.inr ⟨rfl, rfl⟩
      | some lines => simp [hs', hs] at heq
    | some lines' =>
      cases hs : logic.states.lookup m.state with
      | none => simp [hs', hs] at heq
      | some lines =>
        simp only [hs', hs, Task.running.injEq] at heq
        exact Or.inl (congrArg Machine.state heq.1)
  · rintro (hstate | ⟨hs', hs⟩)
    · have hm : m' = m := by
        cases m
        cases m'
        simp_all
      rw [hm]
    · rw [hs', hs]

/-- **Two ways to drive a machine.** A step and an event do the same exactly if the machine is driven by both. -/
theorem handle_agree_iff (m : Machine) (reply : LogicReply) : Agree m reply ↔ Driven m reply := by
  have hstart : Agree m reply ↔ handleStep m reply = handleEvent m reply := by
    constructor
    · intro h
      exact h []
    · intro h ws
      rw [h]
  rw [hstart]
  obtain ⟨behavior, state⟩ := m
  cases behavior with
  | none => exact ⟨fun _ => trivial, fun _ => rfl⟩
  | some name =>
    cases reply with
    | failed | unexpected => exact ⟨fun _ => trivial, fun _ => rfl⟩
    | machineLogic logic =>
      show execute logic (if logic.statesLen = 1 then ⟨some name, "_main"⟩ else ⟨some name, state⟩) =
          execute logic ⟨some name, state⟩ ↔
        logic.statesLen ≠ 1 ∨ state = "_main" ∨
          logic.states.lookup "_main" = none ∧ logic.states.lookup state = none
      by_cases hlen : logic.statesLen = 1
      · rw [if_pos hlen, execute_eq_iff logic ⟨some name, "_main"⟩ ⟨some name, state⟩ rfl]
        show "_main" = state ∨ _ ↔ _
        rw [@eq_comm _ "_main" state]
        exact ⟨Or.inr, fun h => h.resolve_left fun hne => hne hlen⟩
      · rw [if_neg hlen]
        exact ⟨fun _ => Or.inl hlen, fun _ => rfl⟩

/-! ## Scripts -/

/-- the state `_main` of a script is all of it -/
theorem Script.main_lookup (s : Script) : s.logic.states.lookup "_main" = some (0, s.logic.commands.length) := by
  obtain ⟨logic, _, heq⟩ := s.loaded
  rw [heq]
  rfl

/-- a machine with a script is driven by both requests if the script declares states, or the machine is in `_main` -/
theorem Script.driven_iff (s : Script) (m : Machine) :
    Driven m (.machineLogic s.logic) ↔ m.behavior = none ∨ s.logic.statesLen ≠ 1 ∨ m.state = "_main" := by
  obtain ⟨behavior, state⟩ := m
  cases behavior with
  | none => exact ⟨fun _ => Or.inl rfl, fun _ => trivial⟩
  | some name =>
    have hmain : ¬ (s.logic.states.lookup "_main" = none ∧ s.logic.states.lookup state = none) := by
      rw [s.main_lookup]
      exact fun h => absurd h.1 (by simp)
    constructor
    · intro h
      exact Or.inr (h.imp_right fun h => h.resolve_right hmain)
    · intro h
      exact (h.resolve_left (by simp)).imp_right Or.inl

/-- a script of one line -/
def printOnly : Script where
  readers := bareReaders
  protos := script [["print", "hi"]]
  locations := scriptLocations
  numbered := scriptLocations_line
  logic := ⟨"start", [.oneLine ⟨"print", ["hi"]⟩], [("_main", 0, 1)], [], [scriptLocations 0]⟩
  accepted := by decide
  nested := .plain (by decide) (.nil 1)

/-- a new machine with that script: a step runs it as a whole, an event ends the machine -/
theorem event_ends_machine :
    handleStep ⟨some "b", startStateName⟩ (.machineLogic printOnly.logic) =
        .running ⟨some "b", "_main"⟩ printOnly.logic 1 (Config.start 0) ∧
      handleEvent ⟨some "b", startStateName⟩ (.machineLogic printOnly.logic) = .ended ∧
      ¬ Agree ⟨some "b", startStateName⟩ (.machineLogic printOnly.logic) := by
  refine ⟨rfl, rfl, ?_⟩
  intro h
  exact absurd (h []) (by decide)

end BigWorlds.Machine
