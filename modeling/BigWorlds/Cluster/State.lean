/-
A cluster at rest between requests: the leader with its registered workers, and the workers, each with the state its
manager owns and the table of calls its main loop has seen. A worker that is not in the map is gone: no call to it
succeeds.

`execute` is one request to a worker through an executor. A local executor ends in the local stream of the worker's
main loop, a remote one in the network stream; the loop may reject the signal (`Inbox.receive`), and a remote call may
be lost on either way. `execute_spec` says what can happen: the handler runs on that worker's state or nothing changes,
and no other worker changes.
-/
import BigWorlds.Worker.Inbox
import BigWorlds.Worker.Manager

namespace BigWorlds

open BigWorlds.Core (Exec Fate)

structure WorkerNode where
  state : WorkerState
  seen : Inbox.SeenCalls
deriving DecidableEq

structure LeaderState where
  model : Option Model
  workers : FnvHashMap WorkerId Exec
deriving DecidableEq

structure Cluster where
  leader : LeaderState
  workers : FnvHashMap WorkerId WorkerNode
deriving DecidableEq

namespace Cluster

/-! ## Calls -/

def streamOf : Exec → Inbox.Stream
  | .local => .localStreams
  | .remote => .netStream

/-- a handler that runs at one worker -/
abbrev Handler (α : Type) := WorkerState → WorkerState × Except Error α

variable {α : Type}

/-- the signal reaches the main loop of worker `p` on the given stream -/
def handleAt (p : WorkerId) (source : Inbox.Stream) (now : UInt64) (ctx : Context) (handler : Handler α)
    (c : Cluster) : Cluster × Except Error α :=
  match c.workers.lookup p with
  | none => (c, .error (.other "local executor failed sending, receiver dropped"))
  | some node =>
    let seen := (Inbox.receive p now node.seen source ctx).1
    match (Inbox.receive p now node.seen source ctx).2 with
    | .handled _ =>
      ({ c with workers := c.workers.insert p ⟨(handler node.state).1, seen⟩ }, (handler node.state).2)
    | .rejected e => ({ c with workers := c.workers.insert p { node with seen } }, .error e)
    | .dropped =>
      ({ c with workers := c.workers.insert p { node with seen } }, .error (.tokioOneshotRecvError "channel closed"))

def execute (exec : Exec) (fate : Fate Error) (now : UInt64) (ctx : Context) (p : WorkerId) (handler : Handler α)
    (c : Cluster) : Cluster × Except Error α :=
  exec.call fate .otherOf (handleAt p (streamOf exec) now ctx handler) c

/-! ## What a call does -/

def stateOf (c : Cluster) (v : WorkerId) : Option WorkerState := (c.workers.lookup v).map WorkerNode.state

/-- worker `p` is there and its main loop would hand the signal to the request handler -/
def Accepts (c : Cluster) (p : WorkerId) (exec : Exec) (ctx : Context) : Prop :=
  ∃ node, c.workers.lookup p = some node ∧ Inbox.passes node.seen (streamOf exec) ctx.id ctx.delivery = true

/-- the handler ran at worker `p` and nothing else happened -/
structure RanAt (p : WorkerId) (handler : Handler α) (c c' : Cluster) : Prop where
  here : ∃ st, c.stateOf p = some st ∧ c'.stateOf p = some (handler st).1
  elsewhere : ∀ v, v ≠ p → c'.stateOf v = c.stateOf v

/-- the context of a call the leader makes: over the network the leader is set as its origin -/
def fromLeader (exec : Exec) (ctx : Context) : Context :=
  match exec with
  | .remote => { ctx with origin := .participant .leader }
  | .local => ctx

theorem accepts_fromLeader (c : Cluster) (p : WorkerId) (exec exec' : Exec) (ctx : Context) :
    Accepts c p exec (fromLeader exec' ctx) ↔ Accepts c p exec ctx := by
  have hi : (fromLeader exec' ctx).id = ctx.id := by cases exec' <;> rfl
  have hd : (fromLeader exec' ctx).delivery = ctx.delivery := by cases exec' <;> rfl
  simp only [Accepts, hi, hd]

theorem stateOf_insert (c : Cluster) (p v : WorkerId) (node : WorkerNode) :
    stateOf { c with workers := c.workers.insert p node } v = if v = p then some node.state else c.stateOf v := by
  unfold stateOf
  split_ifs with h
  · subst h
    simp
  · simp [Finmap.lookup_insert_of_ne _ h]

theorem accepts_insert {c : Cluster} {p v : WorkerId} {node node' : WorkerNode} {exec exec' : Exec}
    {ctx ctx' : Context} {now : UInt64} (hp : c.workers.lookup p = some node)
    (hs : node'.seen = (Inbox.receive p now node.seen (streamOf exec') ctx').1)
    (h : Accepts { c with workers := c.workers.insert p node' } v exec ctx) : Accepts c v exec ctx := by
  obtain ⟨n, hn, hh⟩ := h
  by_cases hv : v = p
  · subst hv
    rw [Finmap.lookup_insert, Option.some.injEq] at hn
    subst hn
    rw [hs] at hh
    exact ⟨node, hp, Inbox.passes_before _ _ hh⟩
  · rw [Finmap.lookup_insert_of_ne _ hv] at hn
    exact ⟨n, hn, hh⟩

/-- what one signal to worker `p` can do -/
theorem handleAt_spec (p : WorkerId) (exec : Exec) (now : UInt64) (ctx : Context) (handler : Handler α)
    (c : Cluster) :
    (handleAt p (streamOf exec) now ctx handler c).1.leader = c.leader ∧
      (∀ v e k, Accepts (handleAt p (streamOf exec) now ctx handler c).1 v e k → Accepts c v e k) ∧
      (((∀ v, (handleAt p (streamOf exec) now ctx handler c).1.stateOf v = c.stateOf v) ∧
          (∃ err, (handleAt p (streamOf exec) now ctx handler c).2 = .error err) ∧ ¬ Accepts c p exec ctx) ∨
        (Accepts c p exec ctx ∧ RanAt p handler c (handleAt p (streamOf exec) now ctx handler c).1 ∧
          ∃ st, c.stateOf p = some st ∧ (handleAt p (streamOf exec) now ctx handler c).2 = (handler st).2)) := by
  unfold handleAt
  cases hp : c.workers.lookup p with
  | none =>
    refine ⟨rfl, fun _ _ _ h => h, .inl ⟨fun _ => rfl, ⟨_, rfl⟩, ?_⟩⟩
    rintro ⟨node, hn, -⟩
    rw [hp] at hn
    exact absurd hn (by simp)
  | some node =>
    have hst : c.stateOf p = some node.state := by simp [stateOf, hp]
    have hacc : Accepts c p exec ctx ↔ (Inbox.receive p now node.seen (streamOf exec) ctx).2.isHandled = true := by
      rw [Inbox.receive_isHandled]
      constructor
      · rintro ⟨n, hn, hh⟩
        rw [hp, Option.some.injEq] at hn
        rwa [hn]
      · intro hh
        exact ⟨node, hp, hh⟩
    have hseen : ∀ v, (if v = p then some node.state else c.stateOf v) = c.stateOf v := by
      intro v
      split_ifs with hv
      · rw [hv, hst]
      · rfl
    simp only
    cases ho : (Inbox.receive p now node.seen (streamOf exec) ctx).2 with
    | handled k =>
      refine ⟨rfl, fun v e k h => accepts_insert hp rfl h, .inr ⟨hacc.mpr (by rw [ho]; rfl), ⟨?_, ?_⟩, ?_⟩⟩
      · exact ⟨node.state, hst, by rw [stateOf_insert, if_pos rfl]⟩
      · intro v hv
        rw [stateOf_insert, if_neg hv]
      · exact ⟨node.state, hst, rfl⟩
    | rejected e =>
      refine ⟨rfl, fun v e k h => accepts_insert hp rfl h, .inl ⟨fun v => ?_, ⟨e, rfl⟩, ?_⟩⟩
      · rw [stateOf_insert, hseen]
      · rw [hacc, ho]
        exact Bool.false_ne_true
    | dropped =>
      refine ⟨rfl, fun v e k h => accepts_insert hp rfl h, .inl ⟨fun v => ?_, ⟨_, rfl⟩, ?_⟩⟩
      · rw [stateOf_insert, hseen]
      · rw [hacc, ho]
        exact Bool.false_ne_true

/-- the other workers keep their state and their table of calls -/
theorem handleAt_elsewhere {p v : WorkerId} (source : Inbox.Stream) (now : UInt64) (ctx : Context) (hv : v ≠ p)
    (handler : Handler α) (c : Cluster) : (handleAt p source now ctx handler c).1.workers.lookup v = c.workers.lookup v := by
  unfold handleAt
  cases c.workers.lookup p with
  | none => rfl
  | some node =>
    simp only
    cases (Inbox.receive p now node.seen source ctx).2 <;> exact Finmap.lookup_insert_of_ne _ hv

/-- **What a call to a worker can do.** The leader and every other worker stay as they are, no worker accepts more
than before, and either nothing changes and the caller gets an error, or the handler ran there and the caller has its
answer; an error with the handler's success takes a remote executor and a lost answer. -/
theorem execute_spec (exec : Exec) (fate : Fate Error) (now : UInt64) (ctx : Context) (p : WorkerId)
    (handler : Handler α) (c : Cluster) :
    (execute exec fate now ctx p handler c).1.leader = c.leader ∧
      (∀ v e k, Accepts (execute exec fate now ctx p handler c).1 v e k → Accepts c v e k) ∧
      (((∀ v, (execute exec fate now ctx p handler c).1.stateOf v = c.stateOf v) ∧
          ∃ err, (execute exec fate now ctx p handler c).2 = .error err) ∨
        (Accepts c p exec ctx ∧ RanAt p handler c (execute exec fate now ctx p handler c).1 ∧
          ∃ st, c.stateOf p = some st ∧
            ((∃ a, (execute exec fate now ctx p handler c).2 = .ok a ∧ (handler st).2 = .ok a) ∨
              ∃ err, (execute exec fate now ctx p handler c).2 = .error err ∧
                ((∃ err', (handler st).2 = .error err') ∨ (exec = .remote ∧ fate.LosesReply))))) := by
  obtain ⟨hl, ha, hr⟩ := handleAt_spec p exec now ctx handler c
  unfold execute
  rcases exec.call_cases fate .otherOf (handleAt p (streamOf exec) now ctx handler) c with
    ⟨-, e, h⟩ | ⟨h1, h2⟩
  · rw [h]
    exact ⟨rfl, fun _ _ _ h => h, .inl ⟨fun _ => rfl, e, rfl⟩⟩
  · rw [h1]
    refine ⟨hl, ha, ?_⟩
    rcases hr with ⟨hsame, ⟨err, herr⟩, -⟩ | ⟨hacc, hran, st, hst, hans⟩
    · refine .inl ⟨hsame, ?_⟩
      rcases h2 with ⟨e, he, -⟩ | ⟨a, -, ha'⟩
      · exact ⟨e, he⟩
      · rw [herr] at ha'
        exact absurd ha' (by simp)
    · refine .inr ⟨hacc, hran, st, hst, ?_⟩
      rw [hans] at h2
      rcases h2 with ⟨e, he, hw⟩ | ⟨a, ha1, ha2⟩
      · exact .inr ⟨e, he, hw⟩
      · exact .inl ⟨a, ha1, ha2⟩

/-- a call that is not lost runs the handler wherever it is accepted, and brings its success back -/
theorem execute_delivered {exec : Exec} {ctx : Context} {p : WorkerId} {c : Cluster} (now : UInt64)
    (handler : Handler α) (h : Accepts c p exec ctx) :
    RanAt p handler c (execute exec .delivered now ctx p handler c).1 ∧
      ∀ st, c.stateOf p = some st → ∀ a, (handler st).2 = .ok a →
        (execute exec .delivered now ctx p handler c).2 = .ok a := by
  obtain ⟨-, -, ⟨-, -, hn⟩ | ⟨-, hran, st, hst, hans⟩⟩ := handleAt_spec p exec now ctx handler c
  · exact absurd h hn
  · unfold execute Exec.call
    cases exec with
    | «local» =>
      refine ⟨hran, fun st' hst' a ha => ?_⟩
      rw [hst, Option.some.injEq] at hst'
      simp only [hans, hst', ha, Except.mapError]
    | remote =>
      refine ⟨hran, fun st' hst' a ha => ?_⟩
      rw [hst, Option.some.injEq] at hst'
      simp only [hans, hst', ha]

/-- a remote call whose answer is lost ran the handler, and its caller gets an error -/
theorem execute_replyLost {ctx : Context} {p : WorkerId} {c : Cluster} (now : UInt64) (handler : Handler α)
    (err : Error) (h : Accepts c p .remote ctx) :
    RanAt p handler c (execute .remote (.replyLost err) now ctx p handler c).1 ∧
      (execute .remote (.replyLost err) now ctx p handler c).2 = .error err := by
  obtain ⟨-, -, ⟨-, -, hn⟩ | ⟨-, hran, -⟩⟩ := handleAt_spec p .remote now ctx handler c
  · exact absurd h hn
  · exact ⟨hran, rfl⟩

/-! ## What the cluster holds -/

def inMemory (c : Cluster) (v : WorkerId) (x : EntityName) : Option Entity := (c.stateOf v).bind (·.inMemory x)

def archived (c : Cluster) (v : WorkerId) (x : EntityName) : Option Entity := (c.stateOf v).bind (·.archived x)

/-- the copy of entity `x` at worker `v` -/
def copyOf (c : Cluster) (v : WorkerId) (x : EntityName) : Option Entity := (c.stateOf v).bind (·.copyOf x)

/-- worker `v` holds entity `x`, in memory or in its archive -/
def Holds (c : Cluster) (v : WorkerId) (x : EntityName) : Prop := (c.copyOf v x).isSome = true

instance (c : Cluster) (v : WorkerId) (x : EntityName) : Decidable (c.Holds v x) := inferInstanceAs (Decidable (_ = _))

/-- no entity name is held by two workers -/
def Unique (c : Cluster) : Prop := ∀ x v w, c.Holds v x → c.Holds w x → v = w

theorem mem_keys_of_copyOf {c : Cluster} {v : WorkerId} {x : EntityName} {e : Entity} (h : c.copyOf v x = some e) :
    v ∈ c.workers.keys := by
  obtain ⟨st, hst, -⟩ := Option.bind_eq_some_iff.mp h
  obtain ⟨n, hn, -⟩ := Option.map_eq_some_iff.mp hst
  exact FnvHashMap.mem_keys hn

theorem copyOf_eq (c : Cluster) (v : WorkerId) (x : EntityName) :
    c.copyOf v x = (c.inMemory v x <|> c.archived v x) := by
  unfold copyOf inMemory archived
  cases c.stateOf v <;> rfl

end Cluster

end BigWorlds
