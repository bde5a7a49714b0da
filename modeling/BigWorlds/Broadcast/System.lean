/-
A global `Invoke` (`worker/mod.rs`, `Request::Invoke` and `broadcast`; `leader/mod.rs`, `Request::WorkerBroadcast`).

The worker that the request came to forwards it to its peers and to the leader, and the leader to its workers, each
with the context it has then. The signals are in flight all at once: a task each, which the main loop of the worker
turns into a handler or rejects. A worker's handler waits for the answers of all that it has sent, the leader's for one
at a time; both merge the hops of an answer. Only then the worker's handler triggers the events: first on the channel
of the unsynced behaviors, then on the synced behaviors and machines.

Nothing is lost on the way, as between parties of one process. Subscriptions are not part of this. The order in which
the source takes peers and workers from its maps is open.
-/
import BigWorlds.Core.Run
import BigWorlds.Forwarding.LoopFree

namespace BigWorlds.Broadcast

open BigWorlds.Core (Exec)
open Forwarding (broadcastTo broadcastToLeader workerBroadcastTo)

/-! ## Events -/

inductive Effect where
  /-- on the channel of the unsynced behaviors -/
  | send (event : EventName)
  | execute (handle : BehaviorHandle) (event : EventName)
deriving DecidableEq, Repr

/-- what `Invoke` triggers at a worker with these synced behaviors and machines; without a partition it fails -/
def effects (events : List EventName) : Option (List BehaviorHandle) → List Effect
  | none => []
  | some handles =>
    events.map .send ++
      handles.flatMap fun handle => (events.filter fun event => event ∈ handle.triggers).map (.execute handle)

/-! ## State -/

/-- the handler of `Invoke` -/
structure WorkerHandler where
  worker : WorkerId
  /-- what the signal came with, and is forwarded with -/
  ctx : Context
  merged : Context
  /-- peers that the loop has not come to -/
  peers : Finset WorkerId
  /-- whether the leader's turn is still to come -/
  leader : Bool
  triggered : List Effect
  rest : List Effect
deriving DecidableEq

/-- the handler of `WorkerBroadcast` -/
structure LeaderHandler where
  ctx : Context
  /-- workers that the loop has not come to -/
  workers : Finset WorkerId
deriving DecidableEq

inductive Activity where
  /-- in flight -/
  | toWorker (w : WorkerId) (source : Inbox.Stream) (ctx : Context)
  | toLeader (ctx : Context)
  | worker (x : WorkerHandler)
  | leader (x : LeaderHandler)
deriving DecidableEq

structure Task where
  /-- who waits for the answer -/
  parent : Option ℕ
  activity : Activity
  /-- whose answers it waits for -/
  waiting : Finset ℕ
  /-- it has answered -/
  done : Bool
deriving DecidableEq

structure System where
  seen : WorkerId → Inbox.SeenCalls
  tasks : List Task

/-- the worker whose handler it is -/
def Activity.handlerAt : Activity → Option WorkerId
  | .worker x => some x.worker
  | _ => none

def Activity.isLeader : Activity → Bool
  | .leader _ => true
  | _ => false

/-- what the handler has triggered, if it is one of worker `w` -/
def Activity.triggeredAt (w : WorkerId) : Activity → List Effect
  | .worker x => if x.worker = w then x.triggered else []
  | _ => []

namespace System

/-- a task that has not answered yet -/
def active (s : System) (h : ℕ) : Option Task := (s.tasks[h]?).filter fun t => !t.done

/-- the call has come to the request handler of worker `w` -/
def Handles (s : System) (w : WorkerId) : Prop := ∃ t ∈ s.tasks, t.activity.handlerAt = some w

instance (s : System) (w : WorkerId) : Decidable (s.Handles w) := inferInstanceAs (Decidable (∃ _ ∈ _, _))

/-- what worker `w` has triggered, handler by handler -/
def triggered (s : System) (w : WorkerId) : List Effect := s.tasks.flatMap fun t => t.activity.triggeredAt w

/-! ## Operations -/

def set (s : System) (h : ℕ) (t : Task) : System := { s with tasks := s.tasks.set h t }

def push (s : System) (t : Task) : System := { s with tasks := s.tasks ++ [t] }

/-- task `h`, which is `t` now, sends a signal, if there is one, and will wait for its answer -/
def ask (s : System) (h : ℕ) (t : Task) : Option Activity → System
  | none => s.set h t
  | some a => (s.push ⟨some h, a, ∅, false⟩).set h { t with waiting := insert s.tasks.length t.waiting }

end System

/-- the answer of task `h` comes: its context, or an error -/
def Task.told (t : Task) (h : ℕ) (answer : Option Context) : Task :=
  { t with
    waiting := t.waiting.erase h
    activity := match t.activity, answer with
      | .worker x, some ctx => .worker { x with merged := x.merged.mergeHopsUnique ctx.hops }
      | .leader x, some ctx => .leader { x with ctx := x.ctx.mergeHops ctx.hops }
      | a, _ => a }

namespace System

/-- who waits for task `h` gets its answer -/
def tell (s : System) (parent : Option ℕ) (h : ℕ) (answer : Option Context) : System :=
  match parent with
  | some p =>
    match s.tasks[p]? with
    | some u => s.set p (u.told h answer)
    | none => s
  | none => s

/-- task `h`, which is `t`, answers -/
def answer (s : System) (h : ℕ) (t : Task) (answer : Option Context) : System :=
  (s.tell t.parent h answer).set h { t with done := true }

end System

inductive Op where
  /-- the main loop of the worker or of the leader takes the signal -/
  | arrive (h : ℕ) (now : UInt64)
  /-- a worker's handler comes to its peer, or the leader's to its worker -/
  | send (h : ℕ) (p : WorkerId)
  | sendLeader (h : ℕ)
  /-- the next event at the next behavior -/
  | trigger (h : ℕ)
  | finish (h : ℕ)
deriving DecidableEq, Repr

section
variable (c : Cluster)
/- the handles of synced behaviors and machines of each worker, in the order of its maps; none without a partition -/
variable (handles : WorkerId → Option (List BehaviorHandle)) (events : List EventName)

/-- the request handler of worker `w` starts, with this context -/
def begin (w : WorkerId) (st : WorkerState) (ctx : Context) : WorkerHandler :=
  ⟨w, ctx, ctx, st.otherWorkers.keys, true, [], effects events (handles w)⟩

/-- the signal of task `h` comes to worker `w` -/
def System.receive (s : System) (h : ℕ) (t : Task) (w : WorkerId) (source : Inbox.Stream) (ctx : Context)
    (now : UInt64) : System :=
  match c.stateOf w with
  | none => s.answer h t none
  | some st =>
    let r := Inbox.receive w now (s.seen w) source ctx
    match r.2 with
    | .handled ctx' =>
      { s.set h { t with activity := .worker (begin handles events w st ctx') } with
        seen := Function.update s.seen w r.1 }
    | _ => { s.answer h t none with seen := Function.update s.seen w r.1 }

/-- a signal to peer `p`, unless the context names it or it is not connected -/
def WorkerHandler.toPeer (x : WorkerHandler) (p : WorkerId) : Option Activity :=
  ((c.stateOf x.worker).bind fun st => broadcastTo st x.ctx p).map fun exec =>
    .toWorker p (Cluster.streamOf exec) x.ctx

def WorkerHandler.toLeader (x : WorkerHandler) : Option Activity :=
  ((c.stateOf x.worker).bind fun st => broadcastToLeader st x.ctx).map fun _ => .toLeader x.ctx

def LeaderHandler.toWorker (x : LeaderHandler) (p : WorkerId) : Option Activity :=
  (workerBroadcastTo c.leader x.ctx p).map fun exec =>
    .toWorker p (Cluster.streamOf exec) (Cluster.fromLeader exec x.ctx)

/-- every signal of the handler is sent and answered -/
def WorkerHandler.Joined (x : WorkerHandler) (t : Task) : Prop :=
  x.peers = ∅ ∧ x.leader = false ∧ t.waiting = ∅

instance (x : WorkerHandler) (t : Task) : Decidable (x.Joined t) := inferInstanceAs (Decidable (_ ∧ _ ∧ _))

/-- the state after the operation, where it is enabled -/
def next (s : System) : Op → Option System
  | .arrive h now =>
    match s.active h with
    | some t =>
      match t.activity with
      | .toWorker w source ctx => some (s.receive c handles events h t w source ctx now)
      | .toLeader ctx =>
        some (s.set h { t with activity := .leader ⟨ctx.registerHop now .leader, c.leader.workers.keys⟩ })
      | _ => none
    | none => none
  | .send h p =>
    match s.active h with
    | some t =>
      match t.activity with
      | .worker x =>
        if p ∈ x.peers then
          some (s.ask h { t with activity := .worker { x with peers := x.peers.erase p } } (x.toPeer c p))
        else none
      | .leader x =>
        if p ∈ x.workers ∧ t.waiting = ∅ then
          some (s.ask h { t with activity := .leader { x with workers := x.workers.erase p } } (x.toWorker c p))
        else none
      | _ => none
    | none => none
  | .sendLeader h =>
    match s.active h with
    | some t =>
      match t.activity with
      | .worker x =>
        if x.peers = ∅ ∧ x.leader = true then
          some (s.ask h { t with activity := .worker { x with leader := false } } (x.toLeader c))
        else none
      | _ => none
    | none => none
  | .trigger h =>
    match s.active h with
    | some t =>
      match t.activity with
      | .worker x =>
        match x.rest with
        | e :: rest =>
          if x.Joined t then
            some (s.set h { t with activity := .worker { x with triggered := x.triggered ++ [e], rest } })
          else none
        | [] => none
      | _ => none
    | none => none
  | .finish h =>
    match s.active h with
    | some t =>
      match t.activity with
      | .worker x =>
        if x.Joined t ∧ x.rest = [] then some (s.answer h t ((handles x.worker).map fun _ => x.merged)) else none
      | .leader x => if x.workers = ∅ ∧ t.waiting = ∅ then some (s.answer h t (some x.ctx)) else none
      | _ => none
    | none => none

def step (s : System) (o : Op) : System := (next c handles events s o).getD s

/-- nothing can happen any more -/
def Stuck (s : System) : Prop := ∀ o, next c handles events s o = none

end

/-! ## The call -/

def seenOf (c : Cluster) (w : WorkerId) : Inbox.SeenCalls := ((c.workers.lookup w).map WorkerNode.seen).getD ∅

/-- the call comes to worker `entry` -/
def start (c : Cluster) (entry : WorkerId) (source : Inbox.Stream) (ctx : Context) : System :=
  ⟨seenOf c, [⟨none, .toWorker entry source ctx, ∅, false⟩]⟩

/-- the call is new in the cluster: no worker has seen it, and it names no worker but the entry, and not the leader -/
structure Fresh (c : Cluster) (entry : WorkerId) (ctx : Context) : Prop where
  mem : entry ∈ c.workers.keys
  unseen : ∀ w ∈ c.workers.keys, ctx.id ∉ seenOf c w
  workers : ∀ w ∈ c.workers.keys, ctx.wentThroughWorker w = true → w = entry
  leader : ctx.wentThroughLeader = false

/-- a worker of the cluster that connections lead to, from peer to peer or through the leader -/
inductive Reachable (c : Cluster) (entry : WorkerId) : WorkerId → Prop
  | entry : entry ∈ c.workers.keys → Reachable c entry entry
  | peer {w p : WorkerId} {st : WorkerState} {exec : Exec} :
      Reachable c entry w → c.stateOf w = some st → st.otherWorkers.lookup p = some (.connected exec) →
      p ∈ c.workers.keys → Reachable c entry p
  | leader {w r : WorkerId} {st : WorkerState} {exec : Exec} :
      Reachable c entry w → c.stateOf w = some st → st.leader = .connected exec → r ∈ c.leader.workers.keys →
      r ∈ c.workers.keys → Reachable c entry r

end BigWorlds.Broadcast
