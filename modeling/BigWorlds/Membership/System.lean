/-
How the parties of a cluster come to know each other, and what they do when the leader is lost: `IntroduceLeader`,
`ConnectToLeader`, `ConnectToWorker`, `IntroduceWorker` and `Election` of `worker/mod.rs`, `ConnectAndRegisterWorker`,
`ConnectToWorker` and `IntroduceWorker` of `leader/mod.rs`, `AddWorker`, `PullModel` and `SetModel` of
`leader/manager.rs`, the task that looks after the leader of a worker, and the task an orphaned worker leaves behind.

One operation is one message handled by a manager or one answer received; any number of handlers is in flight (`Task`),
and their operations interleave freely. A disabled operation changes nothing.

- `ok` of an operation is `false` where the call about to be made fails with nothing done, or where the answer about to
  be sent is lost; a party that does not run takes no request.
- A QUIC connection answers in the direction in which the other side accepts streams (`Link.answers`). The party that
  opened a connection does not, except a worker that has joined a leader, which does from the end of `ConnectToLeader`.
- `AddWorker` at a leader with a model calls `SetModel` before it enters the worker; `PullModel` and `SetModel` call it on
  every worker entered. The manager takes nothing else while it waits (`busy`). `ConnectAndRegisterWorker` ignores the
  error of `AddWorker`.

An executor names the party at its other end; `forkedBy` is a ghost.
-/
import Mathlib.Data.Finset.Basic
import Mathlib.Logic.Function.Basic
import BigWorlds.Core.Run
import BigWorlds.Model.Entity
import BigWorlds.Rpc.Context

namespace BigWorlds.Membership

abbrev LeaderId := ℕ

/-! ## Parties -/

inductive Link where
  | «local»
  /-- whether the other side accepts streams -/
  | remote (served : Bool)
deriving DecidableEq, Repr

def Link.answers : Link → Bool
  | .local => true
  | .remote served => served

inductive LeaderSituation where
  | unaware
  | unreachable
  | aware (lastContact : UInt32)
  | connected (leader : LeaderId) (link : Link)
  | election
  | orphanedWaiting
deriving DecidableEq, Repr

def LeaderSituation.isConnected : LeaderSituation → Bool
  | .connected _ _ => true
  | _ => false

variable {α : Type}

/-- `worker/pov.rs`, `Leader`; `α` are the addresses -/
structure KnownLeader (α : Type) where
  situation : LeaderSituation
  listeners : List α

/-- `From<LeaderSituation>`, and `..Default::default()` -/
def KnownLeader.of (situation : LeaderSituation) : KnownLeader α := ⟨situation, []⟩

/-- the task of a worker that looks after its leader -/
inductive Watcher (α : Type) where
  | asleep
  /-- `Status` is under way -/
  | asking (leader : KnownLeader α)
  | lost (leader : KnownLeader α)
  | orphaned (leader : KnownLeader α)
  | outvoted (leader : KnownLeader α)
  | listing
  | electing (rest : FnvHashMap WorkerId Link)

structure Worker (α : Type) where
  orphanFork : Bool
  leader : KnownLeader α
  /-- all are `Connected` -/
  otherWorkers : FnvHashMap WorkerId Link
  model : Option Model
  watcher : Watcher α
  running : Bool

/-- `leader/pov.rs`, `Worker` -/
structure Registered (α : Type) where
  link : Link
  listeners : List α

structure Leader (α : Type) where
  workers : FnvHashMap WorkerId (Registered α)
  model : Option Model
  busy : Bool
  running : Bool
  /-- ghost -/
  forkedBy : Option WorkerId

/-- the manager takes the next request -/
def Leader.free (ld : Leader α) : Bool := ld.running && !ld.busy

/-! ## Handlers in flight -/

/-- who waits for `AddWorker` -/
inductive Waiting where
  | register
  | join (orphan : Bool)
  | callWorker
deriving DecidableEq, Repr

/-- where a handler stands: what its next message is -/
inductive Task (α : Type) where
  /-- `leader::Handle::connect_to_local_worker`: `IntroduceLeader` to the worker -/
  | introduceLeader (l : LeaderId) (w : WorkerId) (duplex : Bool)
  | introducing (l : LeaderId) (w : WorkerId) (duplex wasConnected : Bool)
  /-- `RequestLocal::ConnectToLeader` at the worker: `ConnectAndRegisterWorker` to the leader -/
  | register (w : WorkerId) (l : LeaderId)
  | registered (w : WorkerId) (l : LeaderId)
  /-- `Request::ConnectToLeader` at the worker: `IntroduceWorker` to the leader; `orphan`: on behalf of the orphan task -/
  | join (w : WorkerId) (l : LeaderId) (orphan : Bool)
  | getModel (w : WorkerId) (l : LeaderId) (orphan : Bool)
  | joined (w : WorkerId) (l : LeaderId) (model : Option Model) (orphan : Bool)
  | adopting (w : WorkerId) (model : Model)
  /-- `Request::ConnectToWorker` at the leader -/
  | callWorker (l : LeaderId) (w : WorkerId) (address : α)
  /-- `IntroduceLeader` to the worker; of the cluster view it reads the listeners -/
  | introduceWith (l : LeaderId) (w : WorkerId) (address : α) (clusterView : FnvHashMap WorkerId (Registered α))
  | viewing (l : LeaderId) (w : WorkerId) (address : α) (rest : FnvHashMap WorkerId (Registered α))
  | introduced (l : LeaderId) (w : WorkerId) (address : α)
  /-- inside `AddWorker`: `SetModel` to the worker -/
  | sendModel (l : LeaderId) (w : WorkerId) (model : Model) (link : Link) (entry : Registered α) (waiting : Waiting)
  | modelSent (l : LeaderId) (w : WorkerId) (entry : Registered α) (waiting : Waiting) (accepted : Bool)
  /-- `PullModel`, `SetModel` to the leader's manager -/
  | propagate (l : LeaderId) (model : Model)
  /-- `SetModel` to the workers that are left -/
  | propagating (l : LeaderId) (model : Model) (rest : FnvHashMap WorkerId (Registered α))
  /-- `ConnectToWorker` at worker `a`: `IntroduceWorker` to worker `b` -/
  | introduceWorker (a b : WorkerId) (remote : Bool)
  | introducedWorker (a b : WorkerId) (remote : Bool)
  /-- `Election` at worker `w` -/
  | election (w sender : WorkerId)
  | electionTaken (w : WorkerId)
  /-- what an orphaned worker leaves behind: it sleeps, then tries the old addresses -/
  | orphan (w : WorkerId) (oldLeaderAddrs : List α)
  | recheck (w : WorkerId)
  | fork (w : WorkerId)
  | done

structure System (α : Type) where
  worker : WorkerId → Worker α
  leader : LeaderId → Leader α
  /-- the leaders spawned so far -/
  leaders : Finset LeaderId
  tasks : List (Task α)

/-! ## Changes -/

/-- what one message changes -/
inductive Change (α : Type) where
  | nothing
  | setLeader (w : WorkerId) (known : KnownLeader α)
  | addOtherWorker (w other : WorkerId) (link : Link)
  | setModel (w : WorkerId) (model : Model)
  | insertWorker (l : LeaderId) (w : WorkerId) (entry : Registered α)
  /-- the manager waits for `SetModel` -/
  | hold (l : LeaderId)
  | pullModel (l : LeaderId) (model : Model)
  | release (l : LeaderId)
  | cancel (w : WorkerId)

namespace System

def onWorker (s : System α) (w : WorkerId) (f : Worker α → Worker α) : System α :=
  { s with worker := Function.update s.worker w (f (s.worker w)) }

def onLeader (s : System α) (l : LeaderId) (f : Leader α → Leader α) : System α :=
  { s with leader := Function.update s.leader l (f (s.leader l)) }

def apply (s : System α) : Change α → System α
  | .nothing => s
  | .setLeader w known => s.onWorker w fun wk => { wk with leader := known }
  | .addOtherWorker w other link => s.onWorker w fun wk => { wk with otherWorkers := wk.otherWorkers.insert other link }
  | .setModel w model => s.onWorker w fun wk => { wk with model := some model }
  | .insertWorker l w entry =>
    s.onLeader l fun ld => { ld with workers := ld.workers.insert w entry, busy := false }
  | .hold l => s.onLeader l fun ld => { ld with busy := true }
  | .pullModel l model => s.onLeader l fun ld => { ld with model := some model, busy := true }
  | .release l => s.onLeader l fun ld => { ld with busy := false }
  | .cancel w => s.onWorker w fun wk => { wk with running := false }

/-- before any command: no party knows another -/
def start (leaders : Finset LeaderId) (orphanFork : WorkerId → Bool) : System α where
  worker w := ⟨orphanFork w, .of .unaware, ∅, none, .asleep, true⟩
  leader l := ⟨∅, none, false, decide (l ∈ leaders), none⟩
  leaders := leaders
  tasks := []

end System

/-! ## Steps -/

/-- `AddWorker` is taken by the manager of the leader -/
def addWorker (s : System α) (l : LeaderId) (w : WorkerId) (link : Link) (entry : Registered α) (waiting : Waiting)
    (added : Task α) : Change α × Task α :=
  match (s.leader l).model with
  | none => (.insertWorker l w entry, added)
  | some model => (.hold l, .sendModel l w model link entry waiting)

/-- how the handler goes on that waited for `AddWorker` -/
def afterAdding (w : WorkerId) (l : LeaderId) : Waiting → Bool → Task α
  | .register, _ => .registered w l
  | .join orphan, true => .getModel w l orphan
  | .join true, false => .recheck w
  | .join false, false => .done
  | .callWorker, _ => .done

/-- the next message of a handler -/
def next (s : System α) (ok : Bool) : Task α → Change α × Task α
  | .introduceLeader l w duplex =>
    if ok && (s.worker w).running then
      (.nothing, .introducing l w duplex (s.worker w).leader.situation.isConnected)
    else (.nothing, .done)
  | .introducing l w duplex wasConnected =>
    -- `worker already has direct connection to leader`
    (if wasConnected then .nothing else .setLeader w (.of (.connected l .local)),
      if ok && duplex then .register w l else .done)
  | .register w l =>
    if ok && (s.leader l).free then addWorker s l w .local ⟨.local, []⟩ .register (.registered w l)
    else if ok && (s.leader l).running then (.nothing, .register w l)
    else (.nothing, .done)
  | .registered w l =>
    if ok then (.setLeader w (.of (.connected l .local)), .done) else (.nothing, .done)
  | .join w l orphan =>
    if ok && (s.leader l).free then
      -- the worker does not accept streams on the connection before its handler is through
      addWorker s l w (.remote false) ⟨.remote true, []⟩ (.join orphan) (.getModel w l orphan)
    else if ok && (s.leader l).running then (.nothing, .join w l orphan)
    else (.nothing, if orphan then .recheck w else .done)
  | .getModel w l orphan =>
    if ok && (s.leader l).running then
      if (s.leader l).free then (.nothing, .joined w l (s.leader l).model orphan) else (.nothing, .getModel w l orphan)
    -- an error is no model
    else (.nothing, .joined w l none orphan)
  | .joined w l model orphan =>
    if ok then (.setLeader w (.of (.connected l (.remote true))), model.elim .done (.adopting w))
    else (.nothing, if orphan then .recheck w else .done)
  | .adopting w model => (.setModel w model, .done)
  | .callWorker l w address =>
    if ok && (s.leader l).free then
      (.nothing, .introduceWith l w address (s.leader l).workers)
    else if ok && (s.leader l).running then (.nothing, .callWorker l w address)
    else (.nothing, .done)
  | .introduceWith l w address clusterView =>
    if ok && (s.worker w).running then (.nothing, .viewing l w address clusterView) else (.nothing, .done)
  | .viewing l w address rest =>
    -- the entries are taken by `Op.view`
    if rest.keys = ∅ then
      (.setLeader w (.of (.connected l (.remote false))), if ok then .introduced l w address else .done)
    else (.nothing, .viewing l w address rest)
  | .introduced l w address =>
    if ok && (s.leader l).free then
      addWorker s l w (.remote true) ⟨.remote true, [address]⟩ .callWorker .done
    else if ok && (s.leader l).running then (.nothing, .introduced l w address)
    else (.nothing, .done)
  | .sendModel l w model link entry waiting =>
    if ok then
      if link.answers && (s.worker w).running then (.setModel w model, .modelSent l w entry waiting true)
      else (.nothing, .sendModel l w model link entry waiting)
    else (.nothing, .modelSent l w entry waiting false)
  | .modelSent l w entry waiting accepted =>
    if accepted && ok then (.insertWorker l w entry, afterAdding w l waiting true)
    else (.release l, afterAdding w l waiting false)
  | .propagate l model =>
    if ok && (s.leader l).free then (.pullModel l model, .propagating l model (s.leader l).workers)
    else if ok && (s.leader l).running then (.nothing, .propagate l model)
    else (.nothing, .done)
  | .propagating l model rest =>
    -- the workers are called by `Op.sendModel`
    if rest.keys = ∅ then (.release l, .done) else (.nothing, .propagating l model rest)
  | .introduceWorker a b remote =>
    if ok && (s.worker b).running then
      (.addOtherWorker b a (if remote then .remote false else .local), .introducedWorker a b remote)
    else (.nothing, .done)
  | .introducedWorker a b remote =>
    if ok then (.addOtherWorker a b (if remote then .remote true else .local), .done) else (.nothing, .done)
  | .election w sender => (.addOtherWorker w sender (.remote false), .electionTaken w)
  | .electionTaken w => (.setLeader w (.of .election), .done)
  | .orphan w oldLeaderAddrs =>
    match oldLeaderAddrs with
    | [] => (.nothing, .recheck w)
    -- the connection is made by `Op.reconnect`
    | address :: rest => (.nothing, if ok then .orphan w (address :: rest) else .recheck w)
  | .recheck w =>
    match (s.worker w).leader.situation with
    | .election | .connected _ _ => (.nothing, .done)
    | _ => if (s.worker w).orphanFork then (.nothing, .fork w) else (.cancel w, .done)
  -- the leader is spawned by `Op.fork`
  | .fork w => (.nothing, .fork w)
  | .done => (.nothing, .done)

inductive Op (α : Type) where
  /-- `leader::Handle::connect_to_local_worker` -/
  | connectLeaderToLocalWorker (l : LeaderId) (w : WorkerId) (duplex : Bool)
  /-- `worker::Handle::connect_to_local_leader` -/
  | connectToLocalLeader (w : WorkerId) (l : LeaderId)
  /-- `worker::Handle::connect_to_leader`: leader `l` listens at the address -/
  | connectToLeader (w : WorkerId) (l : LeaderId)
  /-- `leader::Handle::connect_to_remote_worker`: worker `w` listens at the address -/
  | connectToRemoteWorker (l : LeaderId) (w : WorkerId) (address : α)
  /-- `worker::Handle::connect_to_local_worker`, `connect_to_worker` -/
  | connectToWorker (a b : WorkerId) (remote : Bool)
  /-- `Request::ReplaceModel`, and `SetModel` to initialize the cluster -/
  | replaceModel (l : LeaderId) (model : Model)
  /-- `worker::Handle::shutdown`: the leader is told, with `DisconnectWorker` -/
  | shutdown (w : WorkerId) (reached : Bool)
  | cancelWorker (w : WorkerId)
  | cancelLeader (l : LeaderId)
  /-- the next message of a task -/
  | advance (i : ℕ) (ok : Bool)
  /-- one entry of the cluster view, which the worker connects to -/
  | view (i : ℕ) (id : WorkerId) (reached : Bool)
  /-- `SetModel` to one of the workers that are left -/
  | sendModel (i : ℕ) (id : WorkerId) (ok : Bool)
  /-- leader `l` listens at the old address -/
  | reconnect (i : ℕ) (l : LeaderId)
  /-- `leader::spawn` -/
  | fork (i : ℕ) (l : LeaderId)
  /-- the watcher of a worker takes its next message -/
  | watch (w : WorkerId) (ok : Bool)
  /-- the watcher sends `Election` to one of the other workers -/
  | elect (w other : WorkerId) (delivered : Bool)

namespace System

def setTask (s : System α) (i : ℕ) (t : Task α) : System α := { s with tasks := s.tasks.set i t }

def addTask (s : System α) (t : Task α) : System α := { s with tasks := s.tasks ++ [t] }

/-- a command starts its handler where the party runs that it is for -/
def accept (s : System α) (running : Bool) (t : Task α) : System α := if running then s.addTask t else s

def setWatcher (s : System α) (w : WorkerId) (p : Watcher α) : System α :=
  s.onWorker w fun wk => { wk with watcher := p }

/-- the next message of the watcher of worker `w` -/
def watch (s : System α) (w : WorkerId) (ok : Bool) : System α :=
  match (s.worker w).watcher with
  | .asleep =>
    if (s.worker w).running && (s.worker w).leader.situation.isConnected then
      s.setWatcher w (.asking (s.worker w).leader)
    else s
  | .asking known =>
    match known.situation with
    | .connected l link =>
      if ok then if link.answers && (s.leader l).free then s.setWatcher w .asleep else s
      else s.setWatcher w (.lost known)
    | _ => s
  | .lost known =>
    s.setWatcher w (if (s.worker w).otherWorkers.keys = ∅ then .orphaned known else .outvoted known)
  | .orphaned known =>
    ((s.apply (.setLeader w { known with situation := .orphanedWaiting })).setWatcher w .asleep).addTask
      (.orphan w known.listeners)
  | .outvoted known => (s.apply (.setLeader w { known with situation := .election })).setWatcher w .listing
  | .listing => s.setWatcher w (.electing (s.worker w).otherWorkers)
  | .electing rest => if rest.keys = ∅ then s.setWatcher w .asleep else s

/-- `Election` to one of the other workers; over a local link the handler panics -/
def elect (s : System α) (w other : WorkerId) (delivered : Bool) : System α :=
  match (s.worker w).watcher with
  | .electing rest =>
    match rest.lookup other with
    | some link =>
      let s' := s.setWatcher w (.electing (rest.erase other))
      if delivered && link == .remote true && (s.worker other).running then s'.addTask (.election other w) else s'
    | none => s
  | _ => s

/-- one entry of the cluster view: the worker connects to the first address it lists -/
def view (s : System α) (i : ℕ) (id : WorkerId) (reached : Bool) : System α :=
  match s.tasks[i]? with
  | some (.viewing l w address rest) =>
    match rest.lookup id with
    | some ⟨_, []⟩ => s.setTask i (.viewing l w address (rest.erase id))
    | some ⟨_, _ :: _⟩ =>
      if reached then
        (s.apply (.addOtherWorker w id (.remote true))).setTask i (.viewing l w address (rest.erase id))
      else s.setTask i .done
    | none => s
  | _ => s

/-- `SetModel` to one of the workers that are left; the first error ends it -/
def sendModel (s : System α) (i : ℕ) (id : WorkerId) (ok : Bool) : System α :=
  match s.tasks[i]? with
  | some (.propagating l model rest) =>
    match rest.lookup id with
    | some entry =>
      if ok then
        if entry.link.answers && (s.worker id).running then
          (s.apply (.setModel id model)).setTask i (.propagating l model (rest.erase id))
        else s
      else (s.apply (.release l)).setTask i .done
    | none => s
  | _ => s

/-- `DisconnectWorker` -/
def disconnect (s : System α) (w : WorkerId) (reached : Bool) : System α :=
  match (s.worker w).leader.situation with
  | .connected l link =>
    if reached && link.answers && (s.leader l).free then
      s.onLeader l fun ld => { ld with workers := ld.workers.erase w }
    else s
  | _ => s

def fork (s : System α) (i : ℕ) (l : LeaderId) : System α :=
  match s.tasks[i]? with
  | some (.fork w) =>
    if l ∈ s.leaders then s
    else
      ({ s with
          leaders := insert l s.leaders
          leader := Function.update s.leader l ⟨∅, none, false, true, some w⟩ } : System α).setTask i (.join w l false)
  | _ => s

def reconnect (s : System α) (i : ℕ) (l : LeaderId) : System α :=
  match s.tasks[i]? with
  | some (.orphan w (_ :: _)) => s.setTask i (.join w l true)
  | _ => s

def advance (s : System α) (i : ℕ) (ok : Bool) : System α :=
  match s.tasks[i]? with
  | some t => (s.apply (next s ok t).1).setTask i (next s ok t).2
  | none => s

def step (s : System α) : Op α → System α
  | .connectLeaderToLocalWorker l w duplex => s.accept (s.leader l).running (.introduceLeader l w duplex)
  | .connectToLocalLeader w l => s.accept (s.worker w).running (.register w l)
  | .connectToLeader w l => s.accept (s.worker w).running (.join w l false)
  | .connectToRemoteWorker l w address => s.accept (s.leader l).running (.callWorker l w address)
  | .connectToWorker a b remote => s.accept (s.worker a).running (.introduceWorker a b remote)
  | .replaceModel l model => s.accept (s.leader l).running (.propagate l model)
  | .shutdown w reached => s.disconnect w reached
  | .cancelWorker w => s.apply (.cancel w)
  | .cancelLeader l => s.onLeader l fun ld => { ld with running := false }
  | .advance i ok => s.advance i ok
  | .view i id reached => s.view i id reached
  | .sendModel i id ok => s.sendModel i id ok
  | .reconnect i l => s.reconnect i l
  | .fork i l => s.fork i l
  | .watch w ok => s.watch w ok
  | .elect w other delivered => s.elect w other delivered

/-! ## Frames -/

variable (s : System α)

@[simp] theorem worker_setTask (i : ℕ) (t : Task α) : (s.setTask i t).worker = s.worker := rfl

@[simp] theorem leader_setTask (i : ℕ) (t : Task α) : (s.setTask i t).leader = s.leader := rfl

@[simp] theorem leaders_setTask (i : ℕ) (t : Task α) : (s.setTask i t).leaders = s.leaders := rfl

@[simp] theorem worker_addTask (t : Task α) : (s.addTask t).worker = s.worker := rfl

@[simp] theorem leader_addTask (t : Task α) : (s.addTask t).leader = s.leader := rfl

@[simp] theorem leaders_addTask (t : Task α) : (s.addTask t).leaders = s.leaders := rfl

@[simp] theorem tasks_onWorker (w : WorkerId) (f : Worker α → Worker α) : (s.onWorker w f).tasks = s.tasks := rfl

@[simp] theorem leader_onWorker (w : WorkerId) (f : Worker α → Worker α) : (s.onWorker w f).leader = s.leader := rfl

@[simp] theorem leaders_onWorker (w : WorkerId) (f : Worker α → Worker α) :
    (s.onWorker w f).leaders = s.leaders := rfl

@[simp] theorem tasks_onLeader (l : LeaderId) (f : Leader α → Leader α) : (s.onLeader l f).tasks = s.tasks := rfl

@[simp] theorem worker_onLeader (l : LeaderId) (f : Leader α → Leader α) : (s.onLeader l f).worker = s.worker := rfl

@[simp] theorem leaders_onLeader (l : LeaderId) (f : Leader α → Leader α) :
    (s.onLeader l f).leaders = s.leaders := rfl

theorem worker_onWorker (w v : WorkerId) (f : Worker α → Worker α) :
    (s.onWorker w f).worker v = if v = w then f (s.worker w) else s.worker v := Function.update_apply ..

theorem leader_onLeader (l k : LeaderId) (f : Leader α → Leader α) :
    (s.onLeader l f).leader k = if k = l then f (s.leader l) else s.leader k := Function.update_apply ..

@[simp] theorem tasks_apply (c : Change α) : (s.apply c).tasks = s.tasks := by cases c <;> rfl

theorem running_apply (c : Change α) (l : LeaderId) : ((s.apply c).leader l).running = (s.leader l).running := by
  cases c <;> unfold apply <;> simp only [leader_onWorker, leader_onLeader] <;> split_ifs with h <;>
    first | rfl | rw [h]

theorem watcher_apply (c : Change α) (v : WorkerId) : ((s.apply c).worker v).watcher = (s.worker v).watcher := by
  cases c <;> unfold apply <;> simp only [worker_onWorker, worker_onLeader] <;> split_ifs with h <;>
    first | rfl | rw [h]

theorem leader_worker_apply {c : Change α} {v : WorkerId} (hc : ∀ known, c ≠ .setLeader v known) :
    ((s.apply c).worker v).leader = (s.worker v).leader := by
  cases c with
  | setLeader w known =>
    unfold apply
    rw [worker_onWorker, if_neg]
    rintro rfl
    exact hc known rfl
  | _ =>
    unfold apply
    simp only [worker_onWorker, worker_onLeader] <;>
      try (split_ifs with heq <;> first | rfl | rw [heq])

theorem forkedBy_apply (c : Change α) (l : LeaderId) :
    ((s.apply c).leader l).forkedBy = (s.leader l).forkedBy := by
  cases c <;> unfold apply <;> simp only [leader_onWorker, leader_onLeader] <;> split_ifs with h <;>
    first | rfl | rw [h]

/-- a leader that has a model keeps one -/
theorem model_apply (c : Change α) {l : LeaderId} (h : (s.leader l).model.isSome) :
    ((s.apply c).leader l).model.isSome := by
  cases c <;> unfold apply <;> simp only [leader_onWorker, leader_onLeader] <;>
    first | exact h | (split_ifs with heq <;> first | exact h | rfl | exact heq ▸ h)

theorem model_apply_eq {c : Change α} {l : LeaderId} (hc : ∀ model, c ≠ .pullModel l model) :
    ((s.apply c).leader l).model = (s.leader l).model := by
  cases c with
  | pullModel k model =>
    unfold apply
    rw [leader_onLeader, if_neg]
    rintro rfl
    exact hc model rfl
  | _ =>
    unfold apply
    simp only [leader_onWorker, leader_onLeader] <;>
      try (split_ifs with heq <;> first | rfl | rw [heq])

theorem workers_apply {c : Change α} {l : LeaderId} (hc : ∀ w entry, c ≠ .insertWorker l w entry) :
    ((s.apply c).leader l).workers = (s.leader l).workers := by
  cases c with
  | insertWorker k w entry =>
    unfold apply
    rw [leader_onLeader, if_neg]
    rintro rfl
    exact hc w entry rfl
  | _ =>
    unfold apply
    simp only [leader_onWorker, leader_onLeader] <;>
      try (split_ifs with heq <;> first | rfl | rw [heq])

@[simp] theorem leaders_apply (c : Change α) : (s.apply c).leaders = s.leaders := by cases c <;> rfl

theorem mem_setTask {i : ℕ} {t u : Task α} (h : u ∈ (s.setTask i t).tasks) : u ∈ s.tasks ∨ u = t :=
  List.mem_or_eq_of_mem_set h

theorem mem_addTask {t u : Task α} (h : u ∈ (s.addTask t).tasks) : u ∈ s.tasks ∨ u = t := by
  simpa [addTask] using h

end System

end BigWorlds.Membership
