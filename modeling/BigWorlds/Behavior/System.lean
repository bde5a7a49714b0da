/-
Events and the behaviors of a worker (`worker/mod.rs`, the arms of `Step` and `Invoke`; `behavior/mod.rs`,
`behavior/lua.rs`, `machine/mod.rs`).

A `Step` or an `Invoke` first sends its events to the unsynced behaviors, over one bounded channel. Then it asks the
manager for the handles of the synced behaviors and of the machines and executes each event on each handle that has it
among its triggers. A `Step` executes on all synced behaviors at once and waits for all of them, then on one machine
after the other, and fails with the first machine that fails. An `Invoke` executes on one handle after the other, event
by event, and does not look at the results.

Each behavior is a task with a queue; it runs one event at a time and replies when it has. A task that panics, or that
is shut down, ends: what is with it is lost, and its callers get an error. Any number of handlers is under way, and
their operations interleave freely. A disabled operation changes nothing.

- Handles are in no order; the order in which they are taken is part of the operation. Machines are in a list.
- A handle that is removed, with its entity or with the partition, stays good for the handlers that have it.
- `since` is a ghost: how many tasks there were when the handler began.

The tasks are those of scripts and machines, which reply to every event; the broadcast of a global event to other
workers, and what a script does to the worker, are not part of this.
-/
import Mathlib.Data.List.Perm.Basic
import Mathlib.Logic.Function.Basic
import BigWorlds.Core.Channel
import BigWorlds.Core.Run
import BigWorlds.Model.Entity

namespace BigWorlds.Behavior

open BigWorlds.Core (Listener)

/-! ## Tasks and handlers -/

inductive Request where
  | step
  | invoke (events : List EventName)
deriving DecidableEq, Repr

def Request.events : Request → List EventName
  | .step => ["step"]
  | .invoke events => events

/-- a call that a handler makes for an event -/
@[ext]
structure Call where
  handler : ℕ
  event : EventName
deriving DecidableEq, Repr

/-- the task of a synced behavior or of a machine, and its handle -/
structure Task where
  triggers : List EventName
  machine : Bool
  /-- the partition has its handle -/
  registered : Bool
  live : Bool
  queue : List Call
  running : Option Call
  ran : List Call
deriving DecidableEq, Repr

/-- what has become of a call -/
inductive Stage where
  | unsent
  | sent
  | replied
  | lost
deriving DecidableEq, Repr

structure Pending where
  task : ℕ
  event : EventName
  stage : Stage
deriving DecidableEq, Repr

inductive Phase where
  /-- events that the unsynced behaviors have not been told -/
  | announcing (rest : List EventName)
  /-- `get_machine_handles`; the handles that an `Invoke` has got before -/
  | collectingMachines (handles : List ℕ)
  /-- the calls under way, those to come after them, and whether machines are among these -/
  | calling (block : List Pending) (rest : List (ℕ × EventName)) (last : Bool)
  /-- the subscriptions -/
  | serving
  | answered
  | failed
deriving DecidableEq, Repr

structure Handler where
  request : Request
  since : ℕ
  phase : Phase
deriving DecidableEq, Repr

structure System where
  task : ℕ → Task
  tasks : ℕ
  handler : ℕ → Handler
  handlers : ℕ
  /-- what has been sent to the unsynced behaviors, and what each of them has received -/
  sent : List EventName
  listeners : List (Listener EventName)

def Task.none : Task := ⟨[], false, false, false, [], .none, []⟩

def System.start : System := ⟨fun _ => .none, 0, fun _ => ⟨.step, 0, .failed⟩, 0, [], []⟩

/-- `LocalExec::new(20)` of `spawn_synced` -/
def queueCapacity : ℕ := 20

/-- the calls to a list of handles, for the events that trigger them -/
def calls (task : ℕ → Task) (events : List EventName) (handles : List ℕ) : List (ℕ × EventName) :=
  handles.flatMap fun t => (events.filter (· ∈ (task t).triggers)).map (t, ·)

def Pending.of (call : ℕ × EventName) : Pending := ⟨call.1, call.2, .unsent⟩

def Pending.settled (p : Pending) : Bool := p.stage = .replied || p.stage = .lost

/-- the calls to a task that have been sent come to an end -/
def Pending.settle (t : ℕ) (stage : Stage) (p : Pending) : Pending :=
  if p.task = t ∧ p.stage = .sent then { p with stage } else p

def Pending.send (t : ℕ) (stage : Stage) (p : Pending) : Pending :=
  if p.task = t ∧ p.stage = .unsent then { p with stage } else p

def Phase.mapBlock (f : Pending → Pending) : Phase → Phase
  | .calling block rest last => .calling (block.map f) rest last
  | phase => phase

def Handler.mapBlock (f : Pending → Pending) (h : Handler) : Handler := { h with phase := h.phase.mapBlock f }

/-- a machine that fails fails a `Step`; what becomes of other calls is not looked at -/
def Handler.stops (h : Handler) (block : List Pending) (last : Bool) : Bool :=
  h.request = .step && last && block.any (·.stage = .lost)

/-- on to the next call, and behind the last one to what comes next -/
def Handler.proceed (h : Handler) : Handler :=
  match h.phase with
  | .calling block rest last =>
    if block.all (·.settled) then
      if h.stops block last then { h with phase := .failed }
      else
        match rest with
        | call :: rest => { h with phase := .calling [.of call] rest last }
        | [] => { h with phase := if last then .serving else .collectingMachines [] }
    else h
  | _ => h

namespace System

def onTask (s : System) (t : ℕ) (f : Task → Task) : System := { s with task := Function.update s.task t (f (s.task t)) }

def onHandler (s : System) (h : ℕ) (f : Handler → Handler) : System :=
  { s with handler := Function.update s.handler h (f (s.handler h)) }

/-- the handles that the partition has of machines, or of other behaviors -/
def handles (s : System) (machine : Bool) : List ℕ :=
  (List.range s.tasks).filter fun t => (s.task t).registered && (s.task t).machine == machine

end System

/-! ## Operations -/

inductive Op where
  | spawn (triggers : List EventName) (machine : Bool)
  | unregister (t : ℕ)
  | subscribe
  | receive (i : ℕ)
  | begins (request : Request)
  | announce (h : ℕ)
  | collect (h : ℕ) (order : List ℕ)
  | collectMachines (h : ℕ)
  | send (h t : ℕ)
  | proceed (h : ℕ)
  | serve (h : ℕ)
  | fails (h : ℕ)
  | take (t : ℕ)
  | complete (t : ℕ)
  | ends (t : ℕ)
deriving DecidableEq, Repr

/-- a call is sent where there is room in the queue, and is lost at once where the task has ended -/
def System.send (s : System) (h t : ℕ) : System :=
  match (s.handler h).phase with
  | .calling block _ _ =>
    match block.find? fun p => p.task = t && p.stage = .unsent with
    | none => s
    | some p =>
      if (s.task t).live then
        if (s.task t).queue.length < queueCapacity then
          (s.onTask t fun x => { x with queue := x.queue ++ [⟨h, p.event⟩] }).onHandler h
            (.mapBlock (.send t .sent))
        else s
      else s.onHandler h (.mapBlock (.send t .lost))
  | _ => s

def System.step (capacity : ℕ) (s : System) : Op → System
  | .spawn triggers machine =>
    { s with task := Function.update s.task s.tasks ⟨triggers, machine, true, true, [], none, []⟩, tasks := s.tasks + 1 }
  | .unregister t => s.onTask t fun x => { x with registered := false }
  | .subscribe => { s with listeners := s.listeners ++ [Listener.subscribe s.sent] }
  | .receive i => { s with listeners := s.listeners.modify i (·.receive capacity s.sent) }
  | .begins request =>
    { s with handler := Function.update s.handler s.handlers ⟨request, s.tasks, .announcing request.events⟩,
             handlers := s.handlers + 1 }
  | .announce h =>
    match (s.handler h).phase with
    | .announcing (event :: rest) =>
      { s.onHandler h fun x => { x with phase := .announcing rest } with sent := s.sent ++ [event] }
    | _ => s
  | .collect h order =>
    match (s.handler h).phase with
    | .announcing [] =>
      if order.Perm (s.handles false) then
        match (s.handler h).request with
        | .step => s.onHandler h fun x =>
          { x with phase := .calling ((calls s.task x.request.events order).map .of) [] false }
        | .invoke _ => s.onHandler h fun x => { x with phase := .collectingMachines order }
      else s
    | _ => s
  | .collectMachines h =>
    match (s.handler h).phase with
    | .collectingMachines handles => s.onHandler h fun x =>
      { x with phase := .calling [] (calls s.task x.request.events (handles ++ s.handles true)) true }
    | _ => s
  | .send h t => s.send h t
  | .proceed h => s.onHandler h Handler.proceed
  | .serve h =>
    match (s.handler h).phase with
    | .serving => s.onHandler h fun x => { x with phase := .answered }
    | _ => s
  | .fails h =>
    match (s.handler h).phase with
    | .announcing _ | .collectingMachines _ | .serving => s.onHandler h fun x => { x with phase := .failed }
    | _ => s
  | .take t =>
    match (s.task t).queue, (s.task t).running with
    | call :: queue, none => s.onTask t fun x => { x with queue, running := some call }
    | _, _ => s
  | .complete t =>
    match (s.task t).running with
    | some call =>
      (s.onTask t fun x => { x with running := none, ran := x.ran ++ [call] }).onHandler call.handler
        (.mapBlock (.settle t .replied))
    | none => s
  | .ends t =>
    { s with task := Function.update s.task t { s.task t with live := false, queue := [], running := none },
             handler := fun h => (s.handler h).mapBlock (.settle t .lost) }

def System.run (capacity : ℕ) (ops : List Op) : System := Core.run (System.step capacity) .start ops

end BigWorlds.Behavior
