/-
Snapshots (`worker/manager.rs`, `Snapshot`) and loading one through the leader (`leader/mod.rs`, `LoadSnapshot`).

The worker lists the entities it has in memory and none of its archive. The leader takes over the model and the clock
of a snapshot and leaves its entities out.

- `complete_iff`: the snapshot has every entity of the partition exactly when nothing is archived only;
- `restored_iff`: the loaded cluster is the one of the snapshot exactly when the snapshot has no entity;
- `snapshot_restores_iff`: both together hold exactly for a worker that holds no entity;
- `spawned_ball_not_restored`: a ball spawned before the snapshot is not there after the load.
-/
import BigWorlds.Cluster.ModelAgreement

namespace BigWorlds

/-! ## Model -/

/-- `Snapshot`: the creation time and the worker count, which loading does not read, are left out -/
structure Snapshot where
  clock : UInt64
  model : Model
  entities : List (EntityName × Entity)
deriving DecidableEq

/-- the entities in memory -/
def WorkerState.liveNames (st : WorkerState) : Finset EntityName := (st.part.map fun part => part.entities.keys).getD ∅

/-- `order` is the order in which the hash map of the partition iterates -/
def WorkerState.snapshot (clock : UInt64) (order : List EntityName) (st : WorkerState) : Snapshot where
  clock := clock
  model := st.model.getD ⟨[], [], [], []⟩
  entities := order.filterMap fun x => (st.inMemory x).map fun e => (x, e)

/-- the model goes to the workers, then the clock is set; the clock of the leader stands beside the cluster -/
def Leader.loadSnapshot (snapshot : Snapshot) (visit : List (WorkerId × Leader.Env)) (s : Cluster × UInt64) :
    (Cluster × UInt64) × Except Error Unit :=
  match Leader.setModel snapshot.model visit s.1 with
  | (c, .ok ()) => ((c, snapshot.clock), .ok ())
  | (c, .error e) => ((c, s.2), .error e)

namespace Snapshots

open BigWorlds.Core (run)
open Leader (Env loadSnapshot)
open ModelAgreement (Agree)
open Names (EachOnce)

/-- requests to the manager of a worker -/
inductive Op where
  | setModel (model : Model)
  | initialize_ (load : Loader) (opens : Except Error Unit)
  | spawnEntity (load : Loader) (name : EntityName) (prefab : Option PrefabName)
  | addEntity (load : Loader) (name : EntityName) (entity : Entity)
  | removeEntity (name : EntityName)
  | getEntity (now : UInt32) (name : EntityName)
  | setVars (pairs : List (Address × Var))

def step (st : WorkerState) : Op → WorkerState
  | .setModel model => (WorkerState.setModel model st).1
  | .initialize_ load opens => (WorkerState.initPartition load opens st).1
  | .spawnEntity load name prefab => (WorkerState.spawnEntity load name prefab st).1
  | .addEntity load name entity => (WorkerState.addEntity load name entity st).1
  | .removeEntity name => (WorkerState.removeEntity name st).1
  | .getEntity now name => (WorkerState.getEntity now name st).1
  | .setVars pairs => (WorkerState.setVars pairs st).1

/-- some run of requests from a worker without a model leads to the state -/
def Reachable (st : WorkerState) : Prop :=
  ∃ config disk ops, st = run step ⟨config, none, none, disk, .unaware, ∅⟩ ops

/-- every entity of the partition, in memory or archived, is in the snapshot once, as it is -/
structure Complete (st : WorkerState) (snapshot : Snapshot) : Prop where
  once : (snapshot.entities.map Prod.fst).Nodup
  all : ∀ x e, (x, e) ∈ snapshot.entities ↔ st.copyOf x = some e

/-- leader and workers have the model of the snapshot, the leader has its clock, and the cluster holds its entities
with their storage and no others -/
structure Restored (snapshot : Snapshot) (s : Cluster × UInt64) : Prop where
  model : s.1.leader.model = some snapshot.model
  agree : Agree s.1
  clock : s.2 = snapshot.clock
  entities : ∀ x storage, (∃ v e, s.1.copyOf v x = some e ∧ e.storage = storage) ↔
    ∃ e, (x, e) ∈ snapshot.entities ∧ e.storage = storage

/-! ## Taking a snapshot -/

theorem mem_liveNames (st : WorkerState) (x : EntityName) : x ∈ st.liveNames ↔ (st.inMemory x).isSome = true := by
  unfold WorkerState.liveNames WorkerState.inMemory
  cases st.part with
  | none => simp
  | some part => simp [Finmap.mem_keys, Finmap.lookup_isSome]

section Take

variable {st : WorkerState} {order : List EntityName} (h : (order : Multiset EntityName) = st.liveNames.val)
include h

theorem snapshot_entities (clock : UInt64) (x : EntityName) (e : Entity) :
    (x, e) ∈ (st.snapshot clock order).entities ↔ st.inMemory x = some e := by
  have hmem : x ∈ order ↔ (st.inMemory x).isSome = true := by
    rw [← Multiset.mem_coe, h, Finset.mem_val, mem_liveNames]
  simp only [WorkerState.snapshot, List.mem_filterMap, Option.map_eq_some_iff, Prod.mk.injEq]
  constructor
  · rintro ⟨y, -, e', he', rfl, rfl⟩
    exact he'
  · intro he
    exact ⟨x, hmem.mpr (by simp [he]), e, he, rfl, rfl⟩

theorem snapshot_names (clock : UInt64) : (st.snapshot clock order).entities.map Prod.fst = order := by
  have hall : ∀ x ∈ order, (st.inMemory x).isSome = true := by
    intro x hx
    rw [← mem_liveNames, ← Finset.mem_val, ← h]
    exact hx
  clear h
  simp only [WorkerState.snapshot]
  induction order with
  | nil => rfl
  | cons x rest ih =>
    obtain ⟨e, he⟩ := Option.isSome_iff_exists.mp (hall x List.mem_cons_self)
    simp only [List.filterMap_cons, he, Option.map_some, List.map_cons]
    rw [ih fun y hy => hall y (List.mem_cons_of_mem _ hy)]

/-- **When a snapshot is complete.** Nothing is in the archive only. -/
theorem complete_iff (clock : UInt64) :
    Complete st (st.snapshot clock order) ↔ ∀ x, (st.archived x).isSome = true → (st.inMemory x).isSome = true := by
  constructor
  · intro hc x hx
    by_contra hm
    rw [Bool.not_eq_true, Option.isSome_eq_false_iff, Option.isNone_iff_eq_none] at hm
    obtain ⟨e, he⟩ := Option.isSome_iff_exists.mp hx
    have hin := (hc.all x e).mpr (by simp [WorkerState.copyOf, hm, he])
    rw [snapshot_entities h, hm] at hin
    cases hin
  · intro ha
    refine ⟨?_, fun x e => ?_⟩
    · rw [snapshot_names h, ← Multiset.coe_nodup, h]
      exact st.liveNames.nodup
    · rw [snapshot_entities h]
      unfold WorkerState.copyOf
      cases hm : st.inMemory x with
      | some e' => simp
      | none =>
        have hnone : st.archived x = none := by
          by_contra hne
          have := ha x (Option.isSome_iff_ne_none.mpr hne)
          simp [hm] at this
        simp [hnone]

end Take

/-! ## Loading it -/

/-- a new model moves no entity -/
theorem propagate_copyOf (model : Model) (visit : List (WorkerId × Env)) (c : Cluster) (v : WorkerId)
    (x : EntityName) : (Leader.propagate model visit c).1.copyOf v x = c.copyOf v x := by
  have hrel := (Leader.onEach_rel (R := fun st st' => ∀ x, st'.copyOf x = st.copyOf x) (fun _ _ => rfl)
    (fun _ _ _ h₁ h₂ x => (h₂ x).trans (h₁ x))
    (fun (env : Env) st => (WorkerState.replaceModel_same env.restart model st).copyOf) visit
    { c with leader := { c.leader with model := some model } }).2 v
  change Option.Rel _ (c.stateOf v) ((Leader.propagate model visit c).1.stateOf v) at hrel
  unfold Cluster.copyOf
  generalize c.stateOf v = a at hrel
  generalize (Leader.propagate model visit c).1.stateOf v = b at hrel
  cases hrel with
  | none => rfl
  | some h => exact h x

/-- a propagation that succeeds leaves the leader and its workers with the model -/
theorem propagate_ok (model : Model) {visit : List (WorkerId × Env)} {c : Cluster}
    (hv : EachOnce c (visit.map Prod.fst)) (hok : (Leader.propagate model visit c).2 = .ok ()) :
    Agree (Leader.propagate model visit c).1 := by
  intro v hk st' hst'
  rw [ModelAgreement.propagate_leader] at hk ⊢
  obtain ⟨p, hp, rfl⟩ := hv.mem hk
  obtain ⟨st, -, hans, hnew⟩ := Leader.onEach_ok hv.nodup hok hp
  obtain rfl := Option.some.inj (hnew.symm.trans hst')
  rcases ModelAgreement.replaceModel_model p.2 model st with ⟨-, hm⟩ | ⟨hno, -⟩
  · exact hm
  · exact absurd ((ModelAgreement.replaceModel_ok_iff p.2 model st).mp hans) hno

/-- **When a snapshot is restored.** Loading it into a cluster without entities succeeds: what the cluster has then is
what the snapshot has exactly if the snapshot has no entity. -/
theorem restored_iff {snapshot : Snapshot} {visit : List (WorkerId × Env)} {c : Cluster} {clock : UInt64}
    (hv : EachOnce c (visit.map Prod.fst)) (hfresh : ∀ v x, ¬ c.Holds v x)
    (hok : (loadSnapshot snapshot visit (c, clock)).2 = .ok ()) :
    Restored snapshot (loadSnapshot snapshot visit (c, clock)).1 ↔ snapshot.entities = [] := by
  have hag := propagate_ok snapshot.model hv
  have hcopy := propagate_copyOf snapshot.model visit c
  have hl := ModelAgreement.propagate_leader snapshot.model visit c
  unfold loadSnapshot Leader.setModel at hok ⊢
  generalize Leader.propagate snapshot.model visit c = res at hag hcopy hl hok
  obtain ⟨c₁, ans⟩ := res
  cases ans with
  | error err => cases hok
  | ok u =>
    have hnone : ∀ v x e, c₁.copyOf v x ≠ some e := by
      intro v x e he
      rw [hcopy] at he
      exact hfresh v x (by simp [Cluster.Holds, he])
    constructor
    · intro hr
      refine List.eq_nil_iff_forall_not_mem.mpr fun p hp => ?_
      obtain ⟨v, e, he, -⟩ := (hr.entities p.1 p.2.storage).mpr ⟨p.2, hp, rfl⟩
      exact hnone v p.1 e he
    · intro hnil
      refine ⟨congrArg LeaderState.model hl, hag rfl, rfl, fun x storage => ?_⟩
      constructor
      · rintro ⟨v, e, he, -⟩
        exact absurd he (hnone v x e)
      · rintro ⟨e, he, -⟩
        rw [hnil] at he
        exact absurd he List.not_mem_nil

/-! ## The whole way -/

/-- **When a snapshot and its load keep the state.** For every state of the worker and every cluster without entities
that loads the snapshot successfully: the snapshot is complete and the loaded cluster is the one of the snapshot exactly
if the worker holds no entity, in memory or archived. -/
theorem snapshot_restores_iff (st : WorkerState) (clock : UInt64) (order : List EntityName)
    (h : (order : Multiset EntityName) = st.liveNames.val) (c : Cluster) (now : UInt64)
    (visit : List (WorkerId × Env)) (hv : EachOnce c (visit.map Prod.fst)) (hfresh : ∀ v x, ¬ c.Holds v x)
    (hok : (loadSnapshot (st.snapshot clock order) visit (c, now)).2 = .ok ()) :
    (Complete st (st.snapshot clock order) ∧
        Restored (st.snapshot clock order) (loadSnapshot (st.snapshot clock order) visit (c, now)).1) ↔
      ∀ x, ¬ st.Holds x := by
  rw [restored_iff hv hfresh hok]
  constructor
  · rintro ⟨hc, hnil⟩ x hx
    obtain ⟨e, he⟩ := Option.isSome_iff_exists.mp hx
    have hin := (hc.all x e).mpr he
    rw [hnil] at hin
    exact absurd hin List.not_mem_nil
  · intro hno
    have hcopy : ∀ x, st.inMemory x = none ∧ st.archived x = none := by
      intro x
      have hx := hno x
      unfold WorkerState.Holds WorkerState.copyOf at hx
      cases hm : st.inMemory x <;> cases ha : st.archived x <;> simp_all
    refine ⟨(complete_iff h clock).mpr fun x hx => ?_, List.eq_nil_iff_forall_not_mem.mpr fun p hp => ?_⟩
    · rw [(hcopy x).2] at hx
      cases hx
    · rw [snapshot_entities h, (hcopy p.1).1] at hp
      cases hp
/-- the first requests a worker gets: a model, and a partition for it -/
def starting : List Op := [.setModel ⟨[], [], [], []⟩, .initialize_ (fun _ => .ok ()) (.ok ())]

def started : WorkerState := run step ⟨.default, none, none, ∅, .unaware, ∅⟩ starting

theorem lone_fresh (v : WorkerId) (x : EntityName) : ¬ ModelAgreement.lone.Holds v x := by
  intro hv
  obtain ⟨e, he⟩ := Option.isSome_iff_exists.mp hv
  obtain rfl : v = 0 := by simpa [ModelAgreement.lone] using Cluster.mem_keys_of_copyOf he
  have hnone : ModelAgreement.lone.copyOf 0 x = none := rfl
  rw [hnone] at he
  cases he

/-- nothing is held: the snapshot is complete and its load restores it -/
theorem empty_worker_restored :
    Complete started (started.snapshot 3 []) ∧
      Restored (started.snapshot 3 []) (loadSnapshot (started.snapshot 3 []) [(0, Names.sure 1)]
        (ModelAgreement.lone, 0)).1 := by
  refine (snapshot_restores_iff started 3 [] (by decide) ModelAgreement.lone 0 [(0, Names.sure 1)] (by decide)
    lone_fresh (by decide)).mpr fun x hx => ?_
  have hnone : started.copyOf x = none := by
    simp [WorkerState.copyOf, WorkerState.inMemory, WorkerState.archived, started, starting, step, WorkerState.setModel,
      WorkerState.initPartition, WorkerConfig.default, PartConfig.default, Partition.fromModel,
      Partition.spawnNonEntityBound, Partition.spawnAll, Partition.new, Partition.archived, WorkerState.onDisk]
  rw [WorkerState.Holds, hnone] at hx
  cases hx

/-- **The load forgets the entities.** A ball is spawned in memory, the snapshot has it, and the cluster that loads the
snapshot does not. -/
theorem spawned_ball_not_restored :
    ¬ ∀ (st : WorkerState) (clock : UInt64) (order : List EntityName) (c : Cluster) (now : UInt64)
      (visit : List (WorkerId × Env)), Reachable st → (order : Multiset EntityName) = st.liveNames.val →
      EachOnce c (visit.map Prod.fst) → (∀ v x, ¬ c.Holds v x) →
      (loadSnapshot (st.snapshot clock order) visit (c, now)).2 = .ok () →
      Complete st (st.snapshot clock order) ∧
        Restored (st.snapshot clock order) (loadSnapshot (st.snapshot clock order) visit (c, now)).1 := by
  intro h
  obtain ⟨-, hr⟩ := h (step started (.spawnEntity (fun _ => .ok ()) "ball" none)) 3 ["ball"] ModelAgreement.lone 0
    [(0, Names.sure 1)] ⟨.default, ∅, starting ++ [.spawnEntity (fun _ => .ok ()) "ball" none], rfl⟩ (by decide)
    (by decide) lone_fresh (by decide)
  have hnil := (restored_iff (by decide) lone_fresh (by decide)).mp hr
  exact absurd hnil (by decide)

end Snapshots

end BigWorlds
