/-
The parties that step together: the leader with its clock and its `process_step` calls, the workers with their clock and
blocked watches, and the servers. One operation is one message handled, one lock taken or one answer received; any
number of calls is in flight, and operations of different calls interleave freely. A disabled operation changes nothing.

- `process_step` (`StepCall`): take the list of workers, ask each whether it is blocked and wait until it is not, send
  `Step` to all, wait for all, increment the clock. Errors of the two rounds of calls are logged and otherwise ignored.
- `Request::Step` at one worker (`StepAt`): read the clock watch, set it, tell the servers one after the other, trigger
  the synced behaviors and wait for them, then the machines, then the subscriptions.
- `initialize` and `LoadSnapshot` at the leader, message by message.

The log is a ghost: for each increment of the leader's clock, the workers then registered and those on which all synced
behaviors triggered by the step have answered.

`step_effect` says once what a step can do; the invariants of the other modules go through its cases.
-/
import Mathlib.Logic.Function.Basic
import BigWorlds.LockStep.Server

namespace BigWorlds.LockStep

open BigWorlds.Core (Watch)

/-! ## Workers -/

structure BehaviorHandle where
  triggers : List String
deriving DecidableEq, Repr

def BehaviorHandle.stepTriggered (h : BehaviorHandle) : Bool := h.triggers.contains "step"

structure Worker where
  clockWatch : ℕ
  blockedWatch : Bool
  servers : Finset ServerId
  syncedBehaviors : List BehaviorHandle
  machines : List BehaviorHandle
deriving DecidableEq

/-- where one worker stands in one `Step`; the flags say whether all triggered behaviors have answered so far -/
inductive StepAt where
  | sent
  | read (currentClock : ℕ)
  /-- the clock watch is set -/
  | clockSet (newClock : ℕ)
  | telling (newClock : ℕ) (todo : Finset ServerId)
  | triggering
  | joining (todo : List BehaviorHandle) (all : Bool)
  | machines (todo : List BehaviorHandle) (all : Bool)
  | subscriptions (all : Bool)
  /-- answered `Ok` or `Err`, or not reached -/
  | ended (all : Bool)
deriving DecidableEq

inductive StepOp where
  /-- the next message of the handler -/
  | next
  /-- `ClockChangedTo` to one server; its error is ignored -/
  | tell (server : ServerId) (reached : Bool)
  /-- one of the joined behaviors returns, with an answer or an error -/
  | join (i : ℕ) (answered : Bool)
  /-- the next message fails -/
  | fail
deriving DecidableEq

namespace StepAt

def isEnded : StepAt → Bool
  | .ended _ => true
  | _ => false

/-- the clock watch of the worker is not set yet -/
def beforeSet : StepAt → Bool
  | .sent | .read _ => true
  | _ => false

/-- the handler goes on -/
def next (wk : Worker) : StepAt → StepAt
  | .sent => .read wk.clockWatch
  | .read currentClock => .clockSet (currentClock + 1)
  | .clockSet newClock => .telling newClock wk.servers
  | .telling newClock todo => if todo = ∅ then .triggering else .telling newClock todo
  | .triggering => .joining (wk.syncedBehaviors.filter (·.stepTriggered)) true
  | .joining [] all => .machines (wk.machines.filter (·.stepTriggered)) all
  | .joining todo all => .joining todo all
  | .machines [] all => .subscriptions all
  | .machines (_ :: rest) all => .machines rest all
  | .subscriptions all => .ended all
  | .ended all => .ended all

/-- the handler returns an error, or the worker is not reached at all -/
def fail : StepAt → StepAt
  | .subscriptions all | .machines [] all | .ended all => .ended all
  | _ => .ended false

/-- what the operation makes of the worker's place in the step -/
def after (wk : Worker) : StepOp → StepAt → StepAt
  | .next, p => p.next wk
  | .tell server _, .telling newClock todo => .telling newClock (todo.erase server)
  | .join i answered, .joining todo all => .joining (todo.eraseIdx i) (all && answered)
  | .fail, p => p.fail
  | _, p => p

end StepAt

/-! ## The leader -/

/-- a call of `process_step` -/
inductive StepCall where
  | received
  | polling (workers ready : Finset WorkerId)
  | stepping (workers : Finset WorkerId) (pos : WorkerId → StepAt)
  | done

/-- it has its list of workers and has not returned -/
def StepCall.isRunning : StepCall → Bool
  | .polling _ _ | .stepping _ _ => true
  | _ => false

def StepCall.isDone : StepCall → Bool
  | .done => true
  | _ => false

/-- a call of `initialize` -/
inductive InitCall where
  | received
  | running (todo : Finset WorkerId)
  | done
deriving DecidableEq

/-- a `LoadSnapshot` request -/
inductive LoadCall where
  | setModel (clock : ℕ)
  | setClock (clock : ℕ)
  | done
deriving DecidableEq

/-- one increment of the leader's clock -/
structure Round where
  registered : Finset WorkerId
  answered : Finset WorkerId
deriving DecidableEq

/-- all synced behaviors triggered by the step have answered on every registered worker -/
def Round.Complete (r : Round) : Prop := r.registered ⊆ r.answered

instance (r : Round) : Decidable r.Complete := inferInstanceAs (Decidable (r.registered ⊆ r.answered))

structure System where
  clock : ℕ
  workers : Finset WorkerId
  worker : WorkerId → Worker
  server : ServerId → Server
  steps : List StepCall
  inits : List InitCall
  loads : List LoadCall
  /-- ghost -/
  log : List Round

inductive Op where
  | client (sv : ServerId) (o : ClientOp)
  | monitorStart (sv : ServerId)
  | monitorWake (sv : ServerId)
  | monitorTell (sv : ServerId) (delivered : Bool)
  | monitorRefresh (sv : ServerId) (locked : Bool)
  /-- the server stores the executor of the worker -/
  | setWorker (sv : ServerId) (w : WorkerId)
  /-- the worker enters the server in its table -/
  | insertServer (w : WorkerId) (sv : ServerId)
  | addBehavior (w : WorkerId) (h : BehaviorHandle)
  | addMachine (w : WorkerId) (h : BehaviorHandle)
  /-- `accepted`: the leader has no model, or `SetModel` was answered `Ok` -/
  | addWorker (w : WorkerId) (accepted : Bool)
  | removeWorker (w : WorkerId)
  | stepRequest
  | getWorkers (k : ℕ)
  | isBlocking (k : ℕ) (w : WorkerId) (reached : Bool)
  | sendSteps (k : ℕ)
  | worker (k : ℕ) (w : WorkerId) (o : StepOp)
  | incrementClock (k : ℕ)
  | initRequest
  | initWorkers (j : ℕ) (ok : Bool)
  /-- `Initialize` at one worker: whether it resets the clock watch, and whether it answers `Ok` -/
  | initWorker (j : ℕ) (w : WorkerId) (reset ok : Bool)
  | initFinish (j : ℕ)
  | loadSnapshot (clock : ℕ)
  | loadNext (j : ℕ) (ok : Bool)
deriving DecidableEq

namespace System

def onServer (s : System) (sv : ServerId) (f : Server → Server) : System :=
  { s with server := Function.update s.server sv (f (s.server sv)) }

def onWorker (s : System) (w : WorkerId) (f : Worker → Worker) : System :=
  { s with worker := Function.update s.worker w (f (s.worker w)) }

def setStep (s : System) (k : ℕ) (call : StepCall) : System := { s with steps := s.steps.set k call }

def setInit (s : System) (j : ℕ) (call : InitCall) : System := { s with inits := s.inits.set j call }

def setLoad (s : System) (j : ℕ) (call : LoadCall) : System := { s with loads := s.loads.set j call }

/-- where a worker stands in the `k`-th step -/
def posAt (s : System) (k : ℕ) (w : WorkerId) : Option StepAt :=
  match s.steps[k]? with
  | some (.stepping _ pos) => some (pos w)
  | _ => none

/-- the clock that the next message of a `LoadSnapshot` request sets -/
def clockToSet (s : System) (j : ℕ) : Option ℕ :=
  match s.loads[j]? with
  | some (.setClock clock) => some clock
  | _ => none

theorem posAt_of_stepping {s : System} {k : ℕ} {workers : Finset WorkerId} {pos : WorkerId → StepAt}
    (h : s.steps[k]? = some (.stepping workers pos)) (w : WorkerId) : s.posAt k w = some (pos w) := by
  simp only [posAt, h]

theorem clockToSet_of_setClock {s : System} {j clock : ℕ} (h : s.loads[j]? = some (.setClock clock)) :
    s.clockToSet j = some clock := by
  simp only [clockToSet, h]

def monitorTell (s : System) (sv : ServerId) (delivered : Bool) : System :=
  match (s.server sv).monitor.phase with
  | .telling w blocking =>
    let s := if delivered then s.onWorker w fun wk => { wk with blockedWatch := blocking } else s
    s.onServer sv Server.monitorTold
  | _ => s

def getWorkers (s : System) (k : ℕ) : System :=
  match s.steps[k]? with
  | some .received => if s.workers = ∅ then s.setStep k .done else s.setStep k (.polling s.workers ∅)
  | _ => s

/-- a worker answers once it is not blocked; an error counts as an answer -/
def isBlocking (s : System) (k : ℕ) (w : WorkerId) (reached : Bool) : System :=
  match s.steps[k]? with
  | some (.polling workers ready) =>
    if w ∈ workers ∧ (reached = true → (s.worker w).blockedWatch = false) then
      s.setStep k (.polling workers (insert w ready))
    else s
  | _ => s

def sendSteps (s : System) (k : ℕ) : System :=
  match s.steps[k]? with
  | some (.polling workers ready) => if ready = workers then s.setStep k (.stepping workers fun _ => .sent) else s
  | _ => s

/-- what a worker's operation does outside its own place in the step -/
def workerEffect (s : System) (w : WorkerId) (o : StepOp) (p : StepAt) : System :=
  match o, p with
  | .next, .read currentClock => s.onWorker w fun wk => { wk with clockWatch := currentClock + 1 }
  | .tell sv true, .telling newClock todo =>
    if sv ∈ todo then s.onServer sv fun server => server.clockChangedTo newClock else s
  | _, _ => s

def workerStep (s : System) (k : ℕ) (w : WorkerId) (o : StepOp) : System :=
  match s.steps[k]? with
  | some (.stepping workers pos) =>
    if w ∈ workers then
      (s.workerEffect w o (pos w)).setStep k
        (.stepping workers (Function.update pos w ((pos w).after (s.worker w) o)))
    else s
  | _ => s

def incrementClock (s : System) (k : ℕ) : System :=
  match s.steps[k]? with
  | some (.stepping workers pos) =>
    if ∀ w ∈ workers, (pos w).isEnded = true then
      { s.setStep k .done with
        clock := s.clock + 1
        log := s.log ++ [⟨s.workers, workers.filter fun w => pos w = .ended true⟩] }
    else s
  | _ => s

/-- `set_model`, then the list of workers -/
def initWorkers (s : System) (j : ℕ) (ok : Bool) : System :=
  match s.inits[j]? with
  | some .received => s.setInit j (if ok then .running s.workers else .done)
  | _ => s

def initWorker (s : System) (j : ℕ) (w : WorkerId) (reset ok : Bool) : System :=
  match s.inits[j]? with
  | some (.running todo) =>
    if w ∈ todo then
      let s := if reset then s.onWorker w fun wk => { wk with clockWatch := 0 } else s
      s.setInit j (if reset && ok then .running (todo.erase w) else .done)
    else s
  | _ => s

def initFinish (s : System) (j : ℕ) : System :=
  match s.inits[j]? with
  | some (.running todo) => if todo = ∅ then s.setInit j .done else s
  | _ => s

def loadNext (s : System) (j : ℕ) (ok : Bool) : System :=
  match s.loads[j]? with
  | some (.setModel clock) => s.setLoad j (if ok then .setClock clock else .done)
  | some (.setClock clock) => { s.setLoad j .done with clock }
  | _ => s

def step (s : System) : Op → System
  | .client sv o => s.onServer sv fun server => server.clientStep o
  | .monitorStart sv => s.onServer sv Server.monitorStart
  | .monitorWake sv => s.onServer sv Server.monitorWake
  | .monitorTell sv delivered => s.monitorTell sv delivered
  | .monitorRefresh sv locked => s.onServer sv fun server => server.monitorRefresh locked
  | .setWorker sv w => s.onServer sv fun server => server.setWorker w
  | .insertServer w sv => s.onWorker w fun wk => { wk with servers := insert sv wk.servers }
  | .addBehavior w h => s.onWorker w fun wk => { wk with syncedBehaviors := wk.syncedBehaviors ++ [h] }
  | .addMachine w h => s.onWorker w fun wk => { wk with machines := wk.machines ++ [h] }
  | .addWorker w accepted => if accepted then { s with workers := insert w s.workers } else s
  | .removeWorker w => { s with workers := s.workers.erase w }
  | .stepRequest => { s with steps := s.steps ++ [.received] }
  | .getWorkers k => s.getWorkers k
  | .isBlocking k w reached => s.isBlocking k w reached
  | .sendSteps k => s.sendSteps k
  | .worker k w o => s.workerStep k w o
  | .incrementClock k => s.incrementClock k
  | .initRequest => { s with inits := s.inits ++ [.received] }
  | .initWorkers j ok => s.initWorkers j ok
  | .initWorker j w reset ok => s.initWorker j w reset ok
  | .initFinish j => s.initFinish j
  | .loadSnapshot clock => { s with loads := s.loads ++ [.setModel clock] }
  | .loadNext j ok => s.loadNext j ok

def start : System where
  clock := 0
  workers := ∅
  worker _ := ⟨0, false, ∅, [], []⟩
  server _ := Server.spawn
  steps := []
  inits := []
  loads := []
  log := []

/-! ## Parties and tasks one by one -/

theorem server_onServer_ne (s : System) {sv sv' : ServerId} (f : Server → Server) (h : sv' ≠ sv) :
    (s.onServer sv f).server sv' = s.server sv' := Function.update_of_ne h _ _

@[simp] theorem server_onServer_self (s : System) (sv : ServerId) (f : Server → Server) :
    (s.onServer sv f).server sv = f (s.server sv) := Function.update_self _ _ _

theorem worker_onWorker_ne (s : System) {w v : WorkerId} (f : Worker → Worker) (h : v ≠ w) :
    (s.onWorker w f).worker v = s.worker v := Function.update_of_ne h _ _

@[simp] theorem worker_onWorker_self (s : System) (w : WorkerId) (f : Worker → Worker) :
    (s.onWorker w f).worker w = f (s.worker w) := Function.update_self _ _ _

/-! ## What one step can do -/

/-- `SetBlocking` is answered; it reached the worker or not -/
def told (s : System) (sv : ServerId) (w : WorkerId) (blocking delivered : Bool) : System :=
  (if delivered then s.onWorker w fun wk => { wk with blockedWatch := blocking } else s).onServer sv Server.monitorTold

theorem worker_told_self (s : System) (sv : ServerId) (w : WorkerId) (blocking : Bool) :
    (s.told sv w blocking true).worker w = { s.worker w with blockedWatch := blocking } := Function.update_self _ _ _

theorem worker_told_ne (s : System) (sv : ServerId) {w v : WorkerId} (blocking delivered : Bool) (h : v ≠ w) :
    (s.told sv w blocking delivered).worker v = s.worker v := by
  cases delivered with
  | false => rfl
  | true => exact Function.update_of_ne h _ _

theorem server_told_self (s : System) (sv : ServerId) (w : WorkerId) (blocking delivered : Bool) :
    (s.told sv w blocking delivered).server sv = (s.server sv).monitorTold := by
  cases delivered <;> exact Function.update_self _ _ _

theorem server_told_ne (s : System) {sv sv' : ServerId} (w : WorkerId) (blocking delivered : Bool) (h : sv' ≠ sv) :
    (s.told sv w blocking delivered).server sv' = s.server sv' := by
  cases delivered <;> exact Function.update_of_ne h _ _

/-- one worker moves on in one step -/
def moved (s : System) (k : ℕ) (w : WorkerId) (workers : Finset WorkerId) (pos : WorkerId → StepAt) (p : StepAt) :
    System :=
  s.setStep k (.stepping workers (Function.update pos w p))

/-- the effects of an operation: none, or the one it has where it is enabled -/
inductive Effect (s : System) : Op → System → Prop where
  | none (o : Op) : Effect s o s
  | client (sv : ServerId) (o : ClientOp) : Effect s (.client sv o) (s.onServer sv fun server => server.clientStep o)
  | monitorStart (sv : ServerId) : Effect s (.monitorStart sv) (s.onServer sv Server.monitorStart)
  | monitorWake (sv : ServerId) : Effect s (.monitorWake sv) (s.onServer sv Server.monitorWake)
  | monitorTell (sv : ServerId) (w : WorkerId) (blocking delivered : Bool)
      (h : (s.server sv).monitor.phase = .telling w blocking) :
      Effect s (.monitorTell sv delivered) (s.told sv w blocking delivered)
  | monitorRefresh (sv : ServerId) (locked : Bool) :
      Effect s (.monitorRefresh sv locked) (s.onServer sv fun server => server.monitorRefresh locked)
  | setWorker (sv : ServerId) (w : WorkerId) :
      Effect s (.setWorker sv w) (s.onServer sv fun server => server.setWorker w)
  | insertServer (w : WorkerId) (sv : ServerId) :
      Effect s (.insertServer w sv) (s.onWorker w fun wk => { wk with servers := insert sv wk.servers })
  | addBehavior (w : WorkerId) (h : BehaviorHandle) :
      Effect s (.addBehavior w h) (s.onWorker w fun wk => { wk with syncedBehaviors := wk.syncedBehaviors ++ [h] })
  | addMachine (w : WorkerId) (h : BehaviorHandle) :
      Effect s (.addMachine w h) (s.onWorker w fun wk => { wk with machines := wk.machines ++ [h] })
  | addWorker (w : WorkerId) : Effect s (.addWorker w true) { s with workers := insert w s.workers }
  | removeWorker (w : WorkerId) : Effect s (.removeWorker w) { s with workers := s.workers.erase w }
  | stepRequest : Effect s .stepRequest { s with steps := s.steps ++ [.received] }
  | noWorkers (k : ℕ) (h : s.steps[k]? = some .received) (hw : s.workers = ∅) :
      Effect s (.getWorkers k) (s.setStep k .done)
  | getWorkers (k : ℕ) (h : s.steps[k]? = some .received) (hw : s.workers ≠ ∅) :
      Effect s (.getWorkers k) (s.setStep k (.polling s.workers ∅))
  | isBlocking (k : ℕ) (w : WorkerId) (reached : Bool) (workers ready : Finset WorkerId)
      (h : s.steps[k]? = some (.polling workers ready)) (hw : w ∈ workers)
      (hb : reached = true → (s.worker w).blockedWatch = false) :
      Effect s (.isBlocking k w reached) (s.setStep k (.polling workers (insert w ready)))
  | sendSteps (k : ℕ) (workers : Finset WorkerId) (h : s.steps[k]? = some (.polling workers workers)) :
      Effect s (.sendSteps k) (s.setStep k (.stepping workers fun _ => .sent))
  | setClockWatch (k : ℕ) (w : WorkerId) (workers : Finset WorkerId) (pos : WorkerId → StepAt) (currentClock : ℕ)
      (h : s.steps[k]? = some (.stepping workers pos)) (hw : w ∈ workers) (hp : pos w = .read currentClock) :
      Effect s (.worker k w .next)
        ((s.onWorker w fun wk => { wk with clockWatch := currentClock + 1 }).moved k w workers pos
          (.clockSet (currentClock + 1)))
  | tell (k : ℕ) (w : WorkerId) (workers : Finset WorkerId) (pos : WorkerId → StepAt) (sv : ServerId) (newClock : ℕ)
      (todo : Finset ServerId) (h : s.steps[k]? = some (.stepping workers pos)) (hw : w ∈ workers)
      (hp : pos w = .telling newClock todo) :
      Effect s (.worker k w (.tell sv true))
        ((s.onServer sv fun server => server.clockChangedTo newClock).moved k w workers pos
          (.telling newClock (todo.erase sv)))
  | worker (k : ℕ) (w : WorkerId) (o : StepOp) (workers : Finset WorkerId) (pos : WorkerId → StepAt)
      (h : s.steps[k]? = some (.stepping workers pos)) (hw : w ∈ workers)
      (hset : o = .next → ∀ currentClock, pos w ≠ .read currentClock) :
      Effect s (.worker k w o) (s.moved k w workers pos ((pos w).after (s.worker w) o))
  | incrementClock (k : ℕ) (workers : Finset WorkerId) (pos : WorkerId → StepAt)
      (h : s.steps[k]? = some (.stepping workers pos)) (hended : ∀ w ∈ workers, (pos w).isEnded = true) :
      Effect s (.incrementClock k)
        { s.setStep k .done with
          clock := s.clock + 1
          log := s.log ++ [⟨s.workers, workers.filter fun w => pos w = .ended true⟩] }
  | initRequest : Effect s .initRequest { s with inits := s.inits ++ [.received] }
  | init (o : Op) (j : ℕ) (call : InitCall) (hset : ∀ i w ok, o ≠ .initWorker i w true ok) :
      Effect s o (s.setInit j call)
  | resetClock (j : ℕ) (w : WorkerId) (ok : Bool) (call : InitCall) :
      Effect s (.initWorker j w true ok) ((s.onWorker w fun wk => { wk with clockWatch := 0 }).setInit j call)
  | loadSnapshot (clock : ℕ) : Effect s (.loadSnapshot clock) { s with loads := s.loads ++ [.setModel clock] }
  | setModel (j : ℕ) (ok : Bool) (call : LoadCall) : Effect s (.loadNext j ok) (s.setLoad j call)
  | setClock (j : ℕ) (ok : Bool) (clock : ℕ) (h : s.loads[j]? = some (.setClock clock)) :
      Effect s (.loadNext j ok) { s.setLoad j .done with clock }

theorem worker_effect (s : System) (k : ℕ) (w : WorkerId) (o : StepOp) :
    Effect s (.worker k w o) (s.workerStep k w o) := by
  unfold workerStep
  split
  · rename_i workers pos h
    split_ifs with hw
    · unfold workerEffect
      split
      · rename_i currentClock hp
        rw [hp]
        exact .setClockWatch k w workers pos currentClock h hw hp
      · rename_i sv newClock todo hp
        split_ifs
        · rw [hp]
          exact .tell k w workers pos sv newClock todo h hw hp
        · exact .worker k w _ workers pos h hw nofun
      · rename_i hread _
        exact .worker k w _ workers pos h hw fun ho currentClock hp => hread currentClock ho hp
    · exact .none _
  · exact .none _

theorem step_effect (s : System) (o : Op) : Effect s o (s.step o) := by
  cases o with
  | client sv o => exact .client sv o
  | monitorStart sv => exact .monitorStart sv
  | monitorWake sv => exact .monitorWake sv
  | monitorTell sv delivered =>
    simp only [step, monitorTell]
    split
    · exact .monitorTell sv _ _ delivered ‹_›
    · exact .none _
  | monitorRefresh sv locked => exact .monitorRefresh sv locked
  | setWorker sv w => exact .setWorker sv w
  | insertServer w sv => exact .insertServer w sv
  | addBehavior w h => exact .addBehavior w h
  | addMachine w h => exact .addMachine w h
  | addWorker w accepted =>
    cases accepted with
    | false => exact .none _
    | true => exact .addWorker w
  | removeWorker w => exact .removeWorker w
  | stepRequest => exact .stepRequest
  | getWorkers k =>
    simp only [step, getWorkers]
    split
    · split_ifs with hw
      · exact .noWorkers k ‹_› hw
      · exact .getWorkers k ‹_› hw
    · exact .none _
  | isBlocking k w reached =>
    simp only [step, isBlocking]
    split
    · split_ifs with hw
      · exact .isBlocking k w reached _ _ ‹_› hw.1 hw.2
      · exact .none _
    · exact .none _
  | sendSteps k =>
    simp only [step, sendSteps]
    split
    · rename_i workers ready h
      split_ifs with hr
      · subst hr
        exact .sendSteps k _ h
      · exact .none _
    · exact .none _
  | worker k w o => exact s.worker_effect k w o
  | incrementClock k =>
    simp only [step, incrementClock]
    split
    · split_ifs with hended
      · exact .incrementClock k _ _ ‹_› hended
      · exact .none _
    · exact .none _
  | initRequest => exact .initRequest
  | initWorkers j ok =>
    simp only [step, initWorkers]
    split
    · exact .init _ j _ nofun
    · exact .none _
  | initWorker j w reset ok =>
    simp only [step, initWorker]
    split
    · split
      · cases reset with
        | true => exact .resetClock j w ok _
        | false => exact .init _ j _ nofun
      · exact .none _
    · exact .none _
  | initFinish j =>
    simp only [step, initFinish]
    split
    · split_ifs
      · exact .init _ j _ nofun
      · exact .none _
    · exact .none _
  | loadSnapshot clock => exact .loadSnapshot clock
  | loadNext j ok =>
    simp only [step, loadNext]
    split
    · exact .setModel j ok _
    · exact .setClock j ok _ ‹_›
    · exact .none _

end System

end BigWorlds.LockStep
