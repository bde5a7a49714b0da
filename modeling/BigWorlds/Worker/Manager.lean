/-
The manager task of a worker (`worker/manager.rs`): it owns the worker state and handles one request at a time. Each
handler below is one arm of `handle_request`; it returns the new state and the answer.

The state keeps what these arms read. `disk` is what the data directory of the worker holds while no partition has the
archive open: a new partition opens the same directory (`onDisk`).

`Touches x st st'` says what an arm about entity `x` leaves alone; each arm has a lemma that says what it does to `x`.
-/
import BigWorlds.Core.Call
import BigWorlds.Worker.Partition

namespace BigWorlds

/-- `worker::Config`: the fields the modelled handlers read -/
structure WorkerConfig where
  partition : PartConfig
  entityMigrationCooldownSecs : Option UInt32
deriving DecidableEq, Repr

def WorkerConfig.default : WorkerConfig := ⟨.default, some 3⟩

inductive LeaderSituation where
  | unaware
  | unreachable
  | aware (lastContact : UInt32)
  | connected (exec : Core.Exec)
  | election
  | orphanedWaiting
deriving DecidableEq, Repr

inductive WorkerSituation where
  | aware (lastContact : UInt32)
  | connected (exec : Core.Exec)
  | unreachable
deriving DecidableEq, Repr

structure WorkerState where
  config : WorkerConfig
  model : Option Model
  part : Option Partition
  disk : FnvHashMap EntityName Entity
  leader : LeaderSituation
  otherWorkers : FnvHashMap WorkerId WorkerSituation
deriving DecidableEq

namespace WorkerState

/-! ## What the worker holds -/

def inMemory (st : WorkerState) (x : EntityName) : Option Entity := st.part.bind (·.entities.lookup x)

def archived (st : WorkerState) (x : EntityName) : Option Entity := st.part.bind (·.archived x)

/-- the copy of an entity the worker holds: in memory, else in the archive -/
def copyOf (st : WorkerState) (x : EntityName) : Option Entity := st.inMemory x <|> st.archived x

/-- what an archive opened on the worker's data directory holds -/
def onDisk (st : WorkerState) : FnvHashMap EntityName Entity :=
  match st.part with
  | some part => part.archive.getD st.disk
  | none => st.disk

/-- whether the partition puts new entities in the archive -/
def createsToArchive (st : WorkerState) : Bool := (st.part.map fun p => p.config.entityCreateToArchive).getD false

/-! ## Requests -/

def noPartition : Error := .workerNotInitialized "Partition not available"
def partUnavailable : Error := .workerNotInitialized "Worker part unavailable"
def modelUnavailable : Error := .workerNotInitialized "Worker model unavailable"

def getEntity (now : UInt32) (name : EntityName) (st : WorkerState) : WorkerState × Except Error Entity :=
  match st.part with
  | some part =>
    ({ st with part := some (part.getEntity now name).1 }, (part.getEntity now name).2)
  | none => (st, .error noPartition)

/-- what `GetEntities` may answer: the names in memory, in the order of the hash map, which is not fixed, then those in
the archive, in the order the archive iterates -/
def Listing (st : WorkerState) (names : List EntityName) : Prop :=
  match st.part with
  | some part =>
    (names.take part.entities.keys.card : Multiset EntityName) = part.entities.keys.val ∧
      (names.drop part.entities.keys.card : Multiset EntityName) =
        ((part.archive.map Finmap.keys).getD ∅).val
  | none => False

instance (st : WorkerState) (names : List EntityName) : Decidable (st.Listing names) := by
  unfold Listing
  split <;> infer_instance

def addEntity (load : Loader) (name : EntityName) (entity : Entity) (st : WorkerState) :
    WorkerState × Except Error Unit :=
  match st.model, st.part with
  | some model, some part =>
    ({ st with part := some (part.addEntity load name entity model).1 }, (part.addEntity load name entity model).2)
  | some _, none => (st, .error partUnavailable)
  | none, _ => (st, .error modelUnavailable)

/-- the prefab's entity, with no initial data -/
def spawnEntity (load : Loader) (name : EntityName) (prefab : Option PrefabName) (st : WorkerState) :
    WorkerState × Except Error Unit :=
  match st.model, st.part with
  | some model, some part =>
    ({ st with part := some (part.spawnEntity load name prefab [] model).1 },
      (part.spawnEntity load name prefab [] model).2)
  | some _, none => (st, .error partUnavailable)
  | none, _ => (st, .error modelUnavailable)

def removeEntity (name : EntityName) (st : WorkerState) : WorkerState × Except Error Unit :=
  match st.part with
  | some part => ({ st with part := some (part.removeEntity name).1 }, (part.removeEntity name).2)
  | none => (st, .error partUnavailable)

/-- one pair of `SetVars`: an entity that is not in memory is passed over -/
def setVar (address : Address) (var : Var) (st : WorkerState) : WorkerState × Except Error Unit :=
  match st.part with
  | some part =>
    match part.entities.lookup address.entity with
    | some e =>
      match e.storage.setFromVar address.toLocal var with
      | .ok storage =>
        ({ st with part := some { part with entities := part.entities.insert address.entity { e with storage } } },
          .ok ())
      | .error err => (st, .error err)
    | none => (st, .ok ())
  | none => (st, .ok ())

/-- the pairs in order, up to the first that fails; those before it stay written -/
def setVars : List (Address × Var) → WorkerState → WorkerState × Except Error Unit
  | [], st => (st, .ok ())
  | (address, var) :: pairs, st =>
    match setVar address var st with
    | (st', .ok ()) => setVars pairs st'
    | (st', .error e) => (st', .error e)

def setModel (model : Model) (st : WorkerState) : WorkerState × Except Error Unit :=
  ({ st with model := some model }, .ok ())

/-- what restarting the behaviors that a new model changes leaves of the handles, and its answer -/
abbrev Restart := WorkerState → FnvHashMap BehaviorTarget (List BehaviorHandle) × Except Error Unit

/-- `SetModel` as the request handler of the worker has it: over an earlier model, changed behaviors are restarted
first, and an error there leaves the earlier model -/
def replaceModel (restart : Restart) (model : Model) (st : WorkerState) : WorkerState × Except Error Unit :=
  if st.model.isSome then
    let st' := { st with part := st.part.map fun part => { part with behaviors := (restart st).1 } }
    match (restart st).2 with
    | .ok () => st'.setModel model
    | .error e => (st', .error e)
  else st.setModel model

/-- the arm of `Initialize`: a fresh partition over the same data directory; `opens` is whether the archive can be opened -/
def initPartition (load : Loader) (opens : Except Error Unit) (st : WorkerState) : WorkerState × Except Error Unit :=
  match st.model with
  | some model =>
    match if st.config.partition.enableArchive then opens else .ok () with
    | .ok () =>
      ({ st with part := some (.fromModel load model st.config.partition st.onDisk), disk := st.onDisk }, .ok ())
    | .error e => (st, .error e)
  | none => (st, .error (.workerNotInitialized "model is not set"))

/-! ## What a fresh partition holds -/

/-- the worker holds entity `x`, in memory or in its archive -/
def Holds (st : WorkerState) (x : EntityName) : Prop := (st.copyOf x).isSome = true

/-- an archive opened on the worker's data directory would hold entity `x` -/
def Stale (st : WorkerState) (x : EntityName) : Prop := st.config.partition.enableArchive = true ∧ x ∈ st.onDisk

/-- the copies, the data directory and the configuration are as before -/
structure SameStore (st st' : WorkerState) : Prop where
  copyOf : ∀ x, st'.copyOf x = st.copyOf x
  onDisk : st'.onDisk = st.onDisk
  config : st'.config = st.config

theorem SameStore.refl (st : WorkerState) : SameStore st st := ⟨fun _ => rfl, rfl, rfl⟩

theorem replaceModel_same (restart : Restart) (model : Model) (st : WorkerState) :
    SameStore st (replaceModel restart model st).1 := by
  have hpart : ∀ behaviors : FnvHashMap BehaviorTarget (List BehaviorHandle),
      SameStore st { st with part := st.part.map fun part => { part with behaviors } } := by
    intro behaviors
    refine ⟨fun x => ?_, ?_, rfl⟩
    · cases hp : st.part <;> simp [WorkerState.copyOf, inMemory, WorkerState.archived, hp, Partition.archived]
    · cases hp : st.part <;> simp [WorkerState.onDisk, hp]
  unfold replaceModel
  split_ifs
  · have h := hpart (restart st).1
    simp only
    split
    · exact ⟨h.copyOf, h.onDisk, h.config⟩
    · exact h
  · exact ⟨fun _ => rfl, rfl, rfl⟩

/-- initializing fails and nothing changes, or the worker holds what its data directory has -/
theorem initPartition_spec (load : Loader) (opens : Except Error Unit) (st : WorkerState) :
    ((initPartition load opens st).1 = st ∧ ∃ err, (initPartition load opens st).2 = .error err) ∨
      ((∀ x, (initPartition load opens st).1.Holds x ↔ st.Stale x) ∧
        (initPartition load opens st).1.onDisk = st.onDisk ∧ (initPartition load opens st).1.config = st.config) := by
  unfold initPartition
  cases st.model with
  | none => exact .inl ⟨rfl, _, rfl⟩
  | some model =>
    simp only
    split
    · refine .inr ?_
      have hs : Partition.SameEntities (Partition.new st.config.partition st.onDisk)
          (Partition.fromModel load model st.config.partition st.onDisk) := Partition.spawnAll_same load _ .worker _
      refine ⟨fun x => ?_, ?_, rfl⟩
      · simp only [Holds, WorkerState.copyOf, inMemory, WorkerState.archived, Option.bind_some, hs.entities,
          hs.archived x, Stale]
        cases ha : st.config.partition.enableArchive with
        | false => simp [Partition.new, Partition.archived, ha]
        | true => simp [Partition.new, Partition.archived, ha, Finmap.lookup_isSome]
      · change (Partition.fromModel load model st.config.partition st.onDisk).archive.getD st.onDisk = st.onDisk
        rw [hs.archive, Partition.new]
        cases st.config.partition.enableArchive <;> rfl
    · exact .inl ⟨rfl, _, rfl⟩

/-! ## What the entity requests leave alone -/

/-- everything but entity `x` and the behaviors is as before -/
structure Touches (x : EntityName) (st st' : WorkerState) : Prop where
  config : st'.config = st.config
  model : st'.model = st.model
  leader : st'.leader = st.leader
  otherWorkers : st'.otherWorkers = st.otherWorkers
  part : st'.part.isSome = st.part.isSome
  creates : st'.createsToArchive = st.createsToArchive
  archive : st'.part.map (·.archive.isSome) = st.part.map (·.archive.isSome)
  inMemory : ∀ y, y ≠ x → st'.inMemory y = st.inMemory y
  archived : ∀ y, y ≠ x → st'.archived y = st.archived y

theorem Touches.refl (x : EntityName) (st : WorkerState) : Touches x st st :=
  ⟨rfl, rfl, rfl, rfl, rfl, rfl, rfl, fun _ _ => rfl, fun _ _ => rfl⟩

theorem Touches.trans {x : EntityName} {s t u : WorkerState} (h₁ : Touches x s t) (h₂ : Touches x t u) :
    Touches x s u :=
  ⟨h₂.config.trans h₁.config, h₂.model.trans h₁.model, h₂.leader.trans h₁.leader,
    h₂.otherWorkers.trans h₁.otherWorkers, h₂.part.trans h₁.part, h₂.creates.trans h₁.creates,
    h₂.archive.trans h₁.archive, fun y hy => (h₂.inMemory y hy).trans (h₁.inMemory y hy),
    fun y hy => (h₂.archived y hy).trans (h₁.archived y hy)⟩

theorem touches_of_frameAt {x : EntityName} {st : WorkerState} {part part' : Partition} (hp : st.part = some part)
    (h : Partition.FrameAt x part part') : Touches x st { st with part := some part' } := by
  refine ⟨rfl, rfl, rfl, rfl, by simp [hp], by simp [createsToArchive, hp, h.config], by simp [hp, h.archive], ?_, ?_⟩
  · intro y hy
    simp only [WorkerState.inMemory, hp, Option.bind_some, h.entities y hy]
  · intro y hy
    simp only [WorkerState.archived, hp, Option.bind_some, h.archived y hy]

/-! ## What the entity requests do -/

/-- the worker can take entities: model and partition are there, and an archive if entities go there -/
structure Takes (st : WorkerState) : Prop where
  model : st.model.isSome = true
  part : st.part.isSome = true
  archive : st.createsToArchive = true → st.part.map (·.archive.isSome) = some true

/-- entity `x` arrived as `e` where the configuration puts new entities -/
def Stored (x : EntityName) (e : Entity) (st st' : WorkerState) : Prop :=
  if st.createsToArchive then st'.archived x = some e ∧ st'.inMemory x = st.inMemory x
  else st'.inMemory x = some e ∧ st'.archived x = st.archived x

/-- nothing about entity `x` changed -/
def Untouched (x : EntityName) (st st' : WorkerState) : Prop :=
  st'.inMemory x = st.inMemory x ∧ st'.archived x = st.archived x

theorem untouched_of_same {x : EntityName} {st : WorkerState} {part part' : Partition} (hp : st.part = some part)
    (h : Partition.SameEntities part part') : Untouched x st { st with part := some part' } := by
  refine ⟨?_, ?_⟩
  · simp only [WorkerState.inMemory, hp, Option.bind_some, h.entities]
  · simp only [WorkerState.archived, hp, Option.bind_some, h.archived x]

theorem addEntity_touches (load : Loader) (x : EntityName) (e : Entity) (st : WorkerState) :
    Touches x st (addEntity load x e st).1 := by
  unfold addEntity
  split
  · rename_i model part hm hp
    exact touches_of_frameAt hp (Partition.addEntity_frame load part x e model)
  · exact Touches.refl x st
  · exact Touches.refl x st

/-- an entity is refused and nothing about it changes, or it is stored by a worker that can take entities -/
theorem addEntity_spec (load : Loader) (x : EntityName) (e : Entity) (st : WorkerState) :
    (Untouched x st (addEntity load x e st).1 ∧ ∃ err, (addEntity load x e st).2 = .error err) ∨
      (Takes st ∧ Stored x e st (addEntity load x e st).1 ∧ (addEntity load x e st).2 = .ok ()) := by
  unfold addEntity
  cases hm : st.model with
  | none => exact .inl ⟨⟨rfl, rfl⟩, _, rfl⟩
  | some model =>
    cases hp : st.part with
    | none => exact .inl ⟨⟨rfl, rfl⟩, _, rfl⟩
    | some part =>
      obtain ⟨part', hs, ⟨err, h⟩ | ⟨a, hc, ha, h⟩ | ⟨hc, h⟩⟩ := Partition.addEntity_cases load part x e model
      · simp only [h]
        exact .inl ⟨untouched_of_same hp hs, err, rfl⟩
      · simp only [h]
        refine .inr ⟨⟨by simp [hm], by simp [hp], fun _ => by simp [hp, ha]⟩, ?_, trivial⟩
        simp [Stored, createsToArchive, hp, hc, WorkerState.archived, WorkerState.inMemory, Partition.archived,
          hs.entities]
      · simp only [h]
        refine .inr ⟨⟨by simp [hm], by simp [hp], fun hc' => ?_⟩, ?_, trivial⟩
        · simp [createsToArchive, hp, hc] at hc'
        · simp [Stored, createsToArchive, hp, hc, WorkerState.archived, WorkerState.inMemory, Partition.archived,
            hs.archive]

/-- the prefab exists and its components do -/
def Makes (st : WorkerState) (prefab : Option PrefabName) : Prop :=
  ∀ name, prefab = some name → ∃ model e, st.model = some model ∧ Entity.fromPrefabName name model = .ok e

theorem spawnEntity_touches (load : Loader) (x : EntityName) (prefab : Option PrefabName) (st : WorkerState) :
    Touches x st (spawnEntity load x prefab st).1 := by
  unfold spawnEntity
  split
  · rename_i model part hm hp
    refine touches_of_frameAt hp ?_
    unfold Partition.spawnEntity
    simp only
    split
    · exact (Partition.SameEntities.refl part).frameAt x
    · exact Partition.addEntity_frame load part x _ model
  · exact Touches.refl x st
  · exact Touches.refl x st

/-- an entity that the worker did not take, or could not make, changes nothing -/
theorem spawnEntity_refused (load : Loader) (x : EntityName) (prefab : Option PrefabName) {st : WorkerState}
    (h : ¬ (st.Takes ∧ st.Makes prefab)) : Untouched x st (spawnEntity load x prefab st).1 := by
  unfold spawnEntity
  split
  · rename_i model part hm hp
    unfold Partition.spawnEntity
    simp only
    split
    · exact untouched_of_same hp (Partition.SameEntities.refl part)
    · rename_i entity hmade
      have hmakes : st.Makes prefab := by
        intro name hname
        subst hname
        cases he : Entity.fromPrefabName name model with
        | ok e => exact ⟨model, e, hm, he⟩
        | error err =>
          simp only [he, bind, Except.bind] at hmade
          cases hmade
      have hadd := addEntity_spec load x entity st
      simp only [addEntity, hm, hp] at hadd
      rcases hadd with ⟨hu, -⟩ | ⟨ht, -⟩
      · exact hu
      · exact absurd ⟨ht, hmakes⟩ h
  · exact ⟨rfl, rfl⟩
  · exact ⟨rfl, rfl⟩

/-- with every library loadable, a worker that can take entities takes this one -/
theorem addEntity_takes {load : Loader} (hload : ∀ b, load b = .ok ()) {st : WorkerState} (h : Takes st)
    (x : EntityName) (e : Entity) : (addEntity load x e st).2 = .ok () := by
  obtain ⟨model, hm⟩ := Option.isSome_iff_exists.mp h.model
  obtain ⟨part, hp⟩ := Option.isSome_iff_exists.mp h.part
  simp only [addEntity, hm, hp]
  refine Partition.addEntity_ok hload (fun hc => ?_) x e model
  simpa [hp] using h.archive (by simp [createsToArchive, hp, hc])

theorem getEntity_touches (now : UInt32) (x : EntityName) (st : WorkerState) : Touches x st (getEntity now x st).1 := by
  unfold getEntity
  cases hp : st.part with
  | none => exact Touches.refl x st
  | some part =>
    refine touches_of_frameAt hp ?_
    rcases Partition.getEntity_cases part now x with ⟨-, h⟩ | ⟨e, -, h⟩
    · rw [h]
      exact (Partition.SameEntities.refl part).frameAt x
    · rw [h]
      exact ⟨fun y hy => Finmap.lookup_insert_of_ne _ hy, fun _ _ => rfl, rfl, rfl⟩

/-- an entity in memory is answered with its access time stamped, another one is an error -/
theorem getEntity_spec (now : UInt32) (x : EntityName) (st : WorkerState) :
    (st.inMemory x = none ∧ (getEntity now x st).1 = st ∧ ∃ err, (getEntity now x st).2 = .error err) ∨
      ∃ e e', st.inMemory x = some e ∧ (getEntity now x st).2 = .ok e' ∧ e'.data = e.data ∧
        e'.meta_.lastMoved = e.meta_.lastMoved ∧ (getEntity now x st).1.inMemory x = some e' ∧
        (getEntity now x st).1.archived x = st.archived x := by
  unfold getEntity
  cases hp : st.part with
  | none => exact .inl ⟨by simp [WorkerState.inMemory, hp], rfl, _, rfl⟩
  | some part =>
    rcases Partition.getEntity_cases part now x with ⟨hx, h⟩ | ⟨e, hx, h⟩
    · simp only [h]
      exact .inl ⟨by simp [WorkerState.inMemory, hp, hx], by rw [← hp], _, rfl⟩
    · simp only [h]
      refine .inr ⟨e, _, by simp [WorkerState.inMemory, hp, hx], rfl, rfl, rfl, ?_, ?_⟩
      · simp [WorkerState.inMemory]
      · simp [WorkerState.archived, hp, Partition.archived]

/-- one pair of `SetVars`: passed over, refused, or written into the live copy -/
theorem setVar_spec (address : Address) (var : Var) (st : WorkerState) :
    (st.inMemory address.entity = none ∧ setVar address var st = (st, .ok ())) ∨
      (∃ e err, st.inMemory address.entity = some e ∧ setVar address var st = (st, .error err)) ∨
      ∃ e, st.inMemory address.entity = some e ∧ (setVar address var st).2 = .ok () ∧
        Touches address.entity st (setVar address var st).1 ∧
        (setVar address var st).1.inMemory address.entity =
          some { e with storage := e.storage.insert address.toLocal.asStorageIndex var } ∧
        (setVar address var st).1.archived address.entity = st.archived address.entity := by
  unfold setVar
  cases hp : st.part with
  | none => exact .inl ⟨by simp [WorkerState.inMemory, hp], rfl⟩
  | some part =>
    simp only
    cases hx : part.entities.lookup address.entity with
    | none => exact .inl ⟨by simp [WorkerState.inMemory, hp, hx], rfl⟩
    | some e =>
      have hm : st.inMemory address.entity = some e := by simp [WorkerState.inMemory, hp, hx]
      simp only
      cases hs : e.storage.setFromVar address.toLocal var with
      | error err => exact .inr (.inl ⟨e, err, hm, rfl⟩)
      | ok storage =>
        refine .inr (.inr ⟨e, hm, rfl, touches_of_frameAt hp ⟨?_, fun _ _ => rfl, rfl, rfl⟩, ?_, ?_⟩)
        · exact fun y hy => Finmap.lookup_insert_of_ne _ hy
        · simp [WorkerState.inMemory, (Storage.setFromVar_ok hs).1]
        · simp [WorkerState.archived, hp, Partition.archived]

theorem removeEntity_touches (x : EntityName) (st : WorkerState) : Touches x st (removeEntity x st).1 := by
  unfold removeEntity
  cases hp : st.part with
  | none => exact Touches.refl x st
  | some part => exact touches_of_frameAt hp (Partition.removeEntity_frame part x)

/-- removing an entity that is in memory succeeds and leaves the archived copy -/
theorem removeEntity_spec {x : EntityName} {st : WorkerState} (h : (st.inMemory x).isSome = true) :
    (removeEntity x st).2 = .ok () ∧ (removeEntity x st).1.inMemory x = none ∧
      (removeEntity x st).1.archived x = st.archived x := by
  unfold removeEntity
  cases hp : st.part with
  | none => simp [WorkerState.inMemory, hp] at h
  | some part =>
    have hm : x ∈ part.entities := by
      simp only [WorkerState.inMemory, hp, Option.bind_some] at h
      exact Finmap.lookup_isSome.mp h
    rcases Partition.removeEntity_cases part x with ⟨-, hr⟩ | ⟨hn, -⟩ | ⟨a, hn, -⟩
    · simp only [hr]
      refine ⟨trivial, ?_, ?_⟩
      · simp [WorkerState.inMemory]
      · simp [WorkerState.archived, hp, Partition.archived]
    · exact absurd hm hn
    · exact absurd hm hn

/-- removing an entity adds none -/
theorem removeEntity_holds {x y : EntityName} {st : WorkerState} (h : (removeEntity x st).1.Holds y) : st.Holds y := by
  by_cases hy : y = x
  · subst hy
    unfold removeEntity at h
    cases hp : st.part with
    | none =>
      rw [hp] at h
      exact h
    | some part =>
      rw [hp] at h
      simp only [Holds, copyOf, inMemory, WorkerState.archived, Option.bind_some, hp] at h ⊢
      rcases Partition.removeEntity_cases part y with ⟨-, hr⟩ | ⟨-, ha, hr⟩ | ⟨a, hn, ha, hr⟩
      · rw [hr] at h
        simp only [Finmap.lookup_erase, Partition.archived] at h ⊢
        cases part.entities.lookup y with
        | none => exact h
        | some e => rfl
      · rw [hr] at h
        exact h
      · rw [hr] at h
        simp [Partition.archived, Finmap.lookup_eq_none.mpr hn] at h
  · have ht := removeEntity_touches x st
    simpa only [Holds, copyOf, ht.inMemory y hy, ht.archived y hy] using h

end WorkerState

end BigWorlds
