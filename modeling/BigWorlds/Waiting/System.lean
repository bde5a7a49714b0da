/-
Who waits for whom: the leader manager and the worker managers, which handle one request at a time, the handlers of
requests, each a task of its own, and the synced behaviors, which run one event at a time.

A handler awaits, in the order of its source, requests to the manager of its party, to behaviors, to other workers and
to the leader (`program`). What is decided by data is left open: whom it asks, how often a loop goes round, whether it
returns early. Two managers await replies themselves: the leader's while it sends a model on to workers, and a worker's
while it handles `Shutdown`, first from each synced behavior, then from the leader. A behavior awaits the calls that its
script makes to its own worker.

A request is with the task asked from when it is sent; a task takes the requests that are with it in any order, one at
a time. Servers, watches and the network are not part of this. A disabled operation changes nothing.
-/
import BigWorlds.Core.Run
import BigWorlds.Rpc.Context
import Mathlib.Data.List.Basic
import Mathlib.Logic.Function.Basic
import Mathlib.Logic.Relation

namespace BigWorlds.Waiting

inductive Task where
  | leaderManager
  | manager (w : WorkerId)
  | behavior (b : ℕ)
  | handler (h : ℕ)
deriving DecidableEq, Repr

/-! ## Requests -/

inductive VarRequest where
  | getVar
  | setVar
deriving DecidableEq, Repr

inductive WorkerRequest where
  | var (r : VarRequest)
  | isBlocking
  | step
  | invoke
  | processQuery
  | setModel
  | mergeModel
  | shutdown
deriving DecidableEq, Repr

inductive LeaderRequest where
  | step
  | workerBroadcast
  | workerProxy
  | mergeModel
  | replaceModel
  | loadSnapshot
  | connectAndRegisterWorker (w : WorkerId)
  | disconnectWorker (w : WorkerId)
deriving DecidableEq, Repr

/-- requests to a worker's manager -/
inductive ManagerRequest where
  | addBehavior
  | getBlockedWatch
  | getClockWatch
  | getConfig
  | getId
  | getLeader
  | getMachineHandles
  | getModel
  | getOtherWorkers
  | getServers
  | getSubscriptions
  | getSyncedBehaviorHandles
  | getUnsyncedBehaviorTx
  | getVar
  | processQuery
  | setClockWatch
  | setModel
  | setVars
  | shutdown
deriving DecidableEq, Repr

/-- requests to the leader's manager -/
inductive LeaderManagerRequest where
  | addWorker (w : WorkerId)
  | getMeta
  | getWorkers
  | incrementClock
  | mergeModel
  | pullModel
  | removeWorker
  | setClock
  | setModel
deriving DecidableEq, Repr

/-- what a handler awaits -/
inductive Ask where
  | own (r : ManagerRequest)
  | leaderOwn (r : LeaderManagerRequest)
  /-- an event, or `Shutdown`, to synced behaviors of the worker -/
  | behaviors (shutdown : Bool)
  | workers (r : WorkerRequest)
  | leader (r : LeaderRequest)
deriving DecidableEq, Repr

/-- asked once, or any number of times, as data decide; requests to other parties may be joined -/
inductive Phase where
  | once (a : Ask)
  | each (as : List Ask)
deriving DecidableEq, Repr

def Phase.asks : Phase → List Ask
  | .once a => [a]
  | .each as => as

/-- the handler of a request: at a worker, at the worker of the behavior that calls, or at the leader -/
inductive Kind where
  | worker (w : WorkerId) (r : WorkerRequest)
  | call (b : ℕ) (r : VarRequest)
  | leader (r : LeaderRequest)
deriving DecidableEq, Repr

/-! ## Programs -/

def VarRequest.program : VarRequest → List Phase
  | .getVar => [.once (.own .getVar)]
  | .setVar => [.once (.own .setVars)]

/-- `process_query` -/
def queryAsks : List Ask :=
  [.own .getId, .own .getOtherWorkers, .own .getLeader, .leader .workerProxy, .workers .processQuery,
    .own .processQuery]

/-- `broadcast` -/
def broadcastAsks : List Ask :=
  [.own .getOtherWorkers, .own .getId, .workers .invoke, .own .getLeader, .leader .workerBroadcast]

def WorkerRequest.program : WorkerRequest → List Phase
  | .var r => r.program
  | .isBlocking => [.once (.own .getBlockedWatch)]
  | .step => [.once (.own .getClockWatch), .once (.own .setClockWatch), .once (.own .getServers),
      .once (.own .getUnsyncedBehaviorTx), .once (.own .getSyncedBehaviorHandles), .once (.behaviors false),
      .once (.own .getMachineHandles), .each [.behaviors false], .once (.own .getSubscriptions), .each queryAsks]
  | .invoke => [.each broadcastAsks, .once (.own .getUnsyncedBehaviorTx), .once (.own .getSyncedBehaviorHandles),
      .once (.own .getMachineHandles), .each [.behaviors false], .each (.own .getSubscriptions :: queryAsks)]
  | .processQuery => [.each queryAsks]
  | .setModel => [.once (.own .getModel), .each [.own .getConfig, .own .getModel, .own .getSyncedBehaviorHandles],
      .each [.behaviors true, .own .addBehavior], .once (.own .setModel)]
  | .mergeModel => [.once (.own .getLeader), .once (.leader .mergeModel)]
  | .shutdown => [.once (.own .shutdown)]

def LeaderRequest.program : LeaderRequest → List Phase
  | .step => [.once (.leaderOwn .getWorkers), .once (.workers .isBlocking), .once (.workers .step),
      .once (.leaderOwn .incrementClock)]
  | .workerBroadcast => [.once (.leaderOwn .getWorkers), .each [.workers .invoke]]
  | .workerProxy => [.once (.leaderOwn .getWorkers), .each [.workers .processQuery]]
  | .mergeModel => [.once (.leaderOwn .mergeModel)]
  | .replaceModel => [.once (.leaderOwn .pullModel)]
  | .loadSnapshot => [.once (.leaderOwn .setModel), .once (.leaderOwn .setClock)]
  | .connectAndRegisterWorker w => [.once (.leaderOwn .getMeta), .once (.leaderOwn .getWorkers),
      .once (.leaderOwn (.addWorker w))]
  | .disconnectWorker _ => [.once (.leaderOwn .removeWorker)]

def Kind.program : Kind → List Phase
  | .worker _ r => r.program
  | .call _ r => r.program
  | .leader r => r.program

/-! ## State -/

structure Handler where
  kind : Kind
  /-- who waits for the answer, if it is one of the tasks -/
  caller : Option Task
  rest : List Phase
  asked : Option Ask
  waiting : List Task
  done : Bool
deriving DecidableEq, Repr

inductive ManagerActivity where
  | idle
  /-- `Shutdown`, for a handler or because the token was cancelled: behaviors still to be told, and whether the leader
  is -/
  | shutdown (h : Option ℕ) (left : List ℕ) (leader : Bool) (waiting : Option Task)
  | stopped
deriving DecidableEq, Repr

inductive LeaderActivity where
  | idle
  /-- the model is sent on for a handler, to the workers that are left -/
  | propagating (h : ℕ) (left : List WorkerId) (waiting : Option ℕ)
deriving DecidableEq, Repr

inductive BehaviorActivity where
  | idle
  /-- the script runs on an event sent by the task, and may be waiting for a call -/
  | running (sender : Task) (waiting : Option ℕ)
  | ended
deriving DecidableEq, Repr

structure System where
  handlers : ℕ → Option Handler
  /-- the next handler's number -/
  next : ℕ
  managers : WorkerId → ManagerActivity
  leader : LeaderActivity
  behaviors : ℕ → BehaviorActivity

/-- nothing happens yet -/
def System.start : System := ⟨fun _ => none, 0, fun _ => .idle, .idle, fun _ => .idle⟩

/-! ## Waiting -/

def ManagerActivity.waits : ManagerActivity → List Task
  | .shutdown _ _ _ (some t) => [t]
  | _ => []

def LeaderActivity.waits : LeaderActivity → List Task
  | .propagating _ _ (some h) => [.handler h]
  | _ => []

def BehaviorActivity.waits : BehaviorActivity → List Task
  | .running _ (some h) => [.handler h]
  | _ => []

/-- the tasks whose reply a task awaits -/
def System.waits (s : System) : Task → List Task
  | .leaderManager => s.leader.waits
  | .manager w => (s.managers w).waits
  | .behavior b => (s.behaviors b).waits
  | .handler h => ((s.handlers h).map Handler.waiting).getD []

/-- the wait-for relation -/
def System.WaitsFor (s : System) (t u : Task) : Prop := u ∈ s.waits t

instance (s : System) (t u : Task) : Decidable (s.WaitsFor t u) := inferInstanceAs (Decidable (_ ∈ _))

/-! ## Operations -/

section
/- the worker of each behavior -/
variable (owner : ℕ → WorkerId)

/-- the worker whose request the handler handles; none at the leader -/
def Kind.site : Kind → Option WorkerId
  | .worker w _ => some w
  | .call b _ => some (owner b)
  | .leader _ => none

/-- the manager of the handler's party -/
def Kind.manager (k : Kind) : Task :=
  match k.site owner with
  | some w => .manager w
  | none => .leaderManager

namespace System

/-- the reply of task `u` comes to task `t` -/
def answer (s : System) (u t : Task) : System :=
  match t with
  | .leaderManager =>
    match s.leader with
    | .propagating h left (some h') => if u = .handler h' then { s with leader := .propagating h left none } else s
    | _ => s
  | .manager w =>
    match s.managers w with
    | .shutdown h left leader (some t') =>
      if u = t' then { s with managers := Function.update s.managers w (.shutdown h left leader none) } else s
    | _ => s
  | .behavior b =>
    match s.behaviors b with
    | .running sender (some h) =>
      if u = .handler h then { s with behaviors := Function.update s.behaviors b (.running sender none) } else s
    | _ => s
  | .handler h =>
    match s.handlers h with
    | some x => { s with handlers := Function.update s.handlers h (some { x with waiting := x.waiting.erase u }) }
    | none => s

/-- a request reaches its party and gets a handler -/
def spawn (s : System) (caller : Option Task) (k : Kind) : System :=
  { s with
    handlers := Function.update s.handlers s.next (some ⟨k, caller, k.program, none, [], false⟩)
    next := s.next + 1 }

/-- several at once, with their tasks -/
def spawnAll (caller : Option Task) : List Kind → System → System × List Task
  | [], s => (s, [])
  | k :: ks, s =>
    let r := spawnAll caller ks (s.spawn caller k)
    (r.1, .handler s.next :: r.2)

/-- handler `h` sends what it asks; the tasks that are asked -/
def send (s : System) (h : ℕ) (k : Kind) (bs : List ℕ) (ws : List WorkerId) : Ask → System × List Task
  | .own _ | .leaderOwn _ => (s, [k.manager owner])
  | .behaviors _ => (s, (bs.filter fun b => k.site owner = some (owner b)).map .behavior)
  | .workers r => spawnAll (some (.handler h)) (ws.map fun w => .worker w r) s
  | .leader r => spawnAll (some (.handler h)) [.leader r] s

/-- handler `h`, which was `x`, asks `a` and goes on with `rest` -/
def asking (s : System) (h : ℕ) (x : Handler) (rest : List Phase) (bs : List ℕ) (ws : List WorkerId) (a : Ask) :
    System :=
  let r := s.send owner h x.kind bs ws a
  { r.1 with
    handlers := Function.update r.1.handlers h (some { x with rest, asked := some a, waiting := x.waiting ++ r.2 }) }

end System

inductive Op where
  /-- a request from outside -/
  | request (w : WorkerId) (r : WorkerRequest)
  | leaderRequest (r : LeaderRequest)
  /-- the handler asks: the `i`-th of a loop, these behaviors or workers -/
  | ask (h i : ℕ) (bs : List ℕ) (ws : List WorkerId)
  /-- the loop ends -/
  | skip (h : ℕ)
  /-- the handler returns -/
  | finish (h : ℕ)
  /-- the worker's manager takes the request of handler `h`; for `Shutdown`, the behaviors it has handles of, and whether
  it is connected to the leader -/
  | serve (w : WorkerId) (h : ℕ) (bs : List ℕ) (leader : Bool)
  /-- the worker is cancelled; as for `Shutdown` -/
  | cancel (w : WorkerId) (bs : List ℕ) (leader : Bool)
  /-- the next await of `Shutdown`, or its end -/
  | proceed (w : WorkerId)
  /-- the leader's manager takes the request of handler `h`; a model is sent on to the given workers -/
  | serveLeader (h : ℕ) (ws : List WorkerId)
  /-- the model is sent to the next worker; or there is none, or an error ended the loop -/
  | proceedLeader (stop : Bool)
  /-- the behavior takes the request of the task -/
  | take (b : ℕ) (t : Task)
  /-- the script calls the worker -/
  | call (b : ℕ) (r : VarRequest)
  /-- the script is through -/
  | done (b : ℕ)
deriving DecidableEq, Repr

/-- whether the task asks a behavior to shut down -/
def System.stops (s : System) : Task → Bool
  | .manager _ => true
  | .handler h =>
    match s.handlers h with
    | some x => x.asked = some (.behaviors true)
    | none => false
  | _ => false

def Task.isHandler : Task → Bool
  | .handler _ => true
  | _ => false

/-- whether the request makes the leader's manager send a model on -/
def LeaderManagerRequest.propagates : LeaderManagerRequest → Bool
  | .addWorker _ | .mergeModel | .pullModel | .setModel => true
  | _ => false

def step (s : System) : Op → System
  | .request w r => s.spawn none (.worker w r)
  | .leaderRequest r => s.spawn none (.leader r)
  | .ask h i bs ws =>
    match s.handlers h with
    | some x =>
      match x.rest with
      | .once a :: rest => if x.waiting = [] ∧ x.done = false then s.asking owner h x rest bs ws a else s
      | .each as :: rest =>
        match as[i]? with
        | some a => if x.waiting.all Task.isHandler ∧ x.done = false then s.asking owner h x (.each as :: rest) bs ws a else s
        | none => s
      | [] => s
    | none => s
  | .skip h =>
    match s.handlers h with
    | some x =>
      match x.rest with
      | .each _ :: rest =>
        if x.waiting = [] then { s with handlers := Function.update s.handlers h (some { x with rest }) } else s
      | _ => s
    | none => s
  | .finish h =>
    match s.handlers h with
    | some x =>
      if x.waiting = [] ∧ x.done = false then
        let s' := { s with handlers := Function.update s.handlers h (some { x with done := true }) }
        match x.caller with
        | some t => s'.answer (.handler h) t
        | none => s'
      else s
    | none => s
  | .serve w h bs leader =>
    match s.managers w, s.handlers h with
    | .idle, some x =>
      if .manager w ∈ x.waiting then
        if x.asked = some (.own .shutdown) then
          { s with managers :=
              Function.update s.managers w (.shutdown (some h) (bs.filter fun b => owner b = w) leader none) }
        else s.answer (.manager w) (.handler h)
      else s
    -- the channel is closed
    | .stopped, _ => s.answer (.manager w) (.handler h)
    | _, _ => s
  | .cancel w bs leader =>
    match s.managers w with
    | .idle =>
      { s with managers := Function.update s.managers w (.shutdown none (bs.filter fun b => owner b = w) leader none) }
    | _ => s
  | .proceed w =>
    match s.managers w with
    | .shutdown h (b :: left) leader none =>
      { s with managers := Function.update s.managers w (.shutdown h left leader (some (.behavior b))) }
    | .shutdown h [] true none =>
      { s.spawn (some (.manager w)) (.leader (.disconnectWorker w)) with
        managers := Function.update s.managers w (.shutdown h [] false (some (.handler s.next))) }
    | .shutdown (some h) [] false none =>
      { s with managers := Function.update s.managers w .idle }.answer (.manager w) (.handler h)
    | .shutdown none [] false none => { s with managers := Function.update s.managers w .stopped }
    | _ => s
  | .serveLeader h ws =>
    match s.leader, s.handlers h with
    | .idle, some x =>
      if .leaderManager ∈ x.waiting then
        match x.asked with
        | some (.leaderOwn (.addWorker w)) =>
          -- there is a model to be sent, or not
          { s with leader := .propagating h (ws.filter fun v => v = w) none }
        | some (.leaderOwn r) =>
          if r.propagates then { s with leader := .propagating h ws none } else s.answer .leaderManager (.handler h)
        | _ => s.answer .leaderManager (.handler h)
      else s
    | _, _ => s
  | .proceedLeader stop =>
    match s.leader with
    | .propagating h left none =>
      match stop, left with
      | false, w :: left =>
        { s.spawn (some .leaderManager) (.worker w .setModel) with leader := .propagating h left (some s.next) }
      | _, _ => { s with leader := .idle }.answer .leaderManager (.handler h)
    | _ => s
  | .take b t =>
    if .behavior b ∈ s.waits t then
      match s.behaviors b with
      | .idle =>
        if s.stops t then { s with behaviors := Function.update s.behaviors b .ended }.answer (.behavior b) t
        else { s with behaviors := Function.update s.behaviors b (.running t none) }
      -- the channel is closed
      | .ended => s.answer (.behavior b) t
      | .running _ _ => s
    else s
  | .call b r =>
    match s.behaviors b with
    | .running t none =>
      { s.spawn (some (.behavior b)) (.call b r) with
        behaviors := Function.update s.behaviors b (.running t (some s.next)) }
    | _ => s
  | .done b =>
    match s.behaviors b with
    | .running t none => { s with behaviors := Function.update s.behaviors b .idle }.answer (.behavior b) t
    | _ => s

end

end BigWorlds.Waiting
