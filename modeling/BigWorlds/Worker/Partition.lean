/-
The partition of a worker (`worker/part.rs`): live entities in memory, an optional archive on disk, handles of the
spawned behaviors.

A function that changes the partition returns the new partition with its answer, also when the answer is an error: the
source works on `&mut self` and an early `?` keeps what was done before it. Two things come from outside the modelled
code and are arguments: `load`, whether the artifact of a dynlib behavior can be written and opened, and `now`, the
clock in seconds. Disk operations on the archive are taken to succeed (the source unwraps most of them).

`addEntity_cases` and `removeEntity_cases` say what the two operations can do; `copyOf` is the copy of an entity that
the partition answers with, memory first.
-/
import BigWorlds.Model.Entity

namespace BigWorlds

/-- `part::Config`: the fields entity handling reads -/
structure PartConfig where
  enableArchive : Bool
  autoArchiveEntities : Bool
  archiveEntityAfterSecs : UInt32
  entityCreateToArchive : Bool
deriving DecidableEq, Repr

def PartConfig.default : PartConfig := ⟨true, false, 5, false⟩

inductive BehaviorTarget where
  | worker
  | entity (name : EntityName)
deriving DecidableEq, Repr

structure BehaviorHandle where
  name : String
  triggers : List EventName
deriving DecidableEq, Repr

structure Partition where
  entities : FnvHashMap EntityName Entity
  archive : Option (FnvHashMap EntityName Entity)
  behaviors : FnvHashMap BehaviorTarget (List BehaviorHandle)
  /-- names of the spawned machines -/
  machines : List String
  config : PartConfig
deriving DecidableEq

/-- whether the library of a dynlib behavior can be written to disk and opened -/
abbrev Loader := BehaviorModel → Except Error Unit

/-- the last access was more than the given seconds ago; an entity that never was accessed is not idle. The
difference wraps. -/
def Entity.idle (after now : UInt32) (e : Entity) : Bool :=
  match e.meta_.lastAccess with
  | some lastAccess => now - lastAccess > after
  | none => false

namespace Partition

/-! ## Behaviors -/

def pushHandle (part : Partition) (target : BehaviorTarget) (h : BehaviorHandle) : Partition :=
  { part with behaviors := part.behaviors.insert target ((part.behaviors.lookup target).getD [] ++ [h]) }

/-- `behavior::spawn_onto_partition`; unsynced tasks only subscribe to the broadcast channel -/
def spawnOntoPartition (load : Loader) (part : Partition) (target : BehaviorTarget) (b : BehaviorModel) :
    Partition × Except Error Unit :=
  match b.inner with
  | .dynlib _ _ synced =>
    match load b with
    | .error e => (part, .error e)
    | .ok () => (if synced then part.pushHandle target ⟨b.name, b.triggers⟩ else part, .ok ())
  | .machine => ({ part with machines := part.machines ++ [b.name] }, .ok ())
  | .lua synced => (if synced then part.pushHandle target ⟨b.name, b.triggers⟩ else part, .ok ())

def spawnAll (load : Loader) (part : Partition) (target : BehaviorTarget) :
    List BehaviorModel → Partition × Except Error Unit
  | [] => (part, .ok ())
  | b :: bs =>
    match part.spawnOntoPartition load target b with
    | (part', .ok ()) => spawnAll load part' target bs
    | (part', .error e) => (part', .error e)

/-- the behaviors instanced for an entity with these components -/
def InstancedFor (components : List CompName) (b : BehaviorModel) : Bool :=
  b.targets.any fun target => match target with
    | .perEntityWithAllComponents comps => comps.all fun comp => comp ∈ components
    | .perEntityWithAnyComponent comps => comps.any fun comp => comp ∈ components
    | _ => false

/-- `behavior::spawn_non_entity_bound`: one task for each per-worker rule. Its result is discarded by `from_model`. -/
def spawnNonEntityBound (load : Loader) (part : Partition) (model : Model) : Partition :=
  (part.spawnAll load .worker
    (model.behaviors.flatMap fun b => (b.targets.filter (· = .perWorker)).map fun _ => b)).1

/-! ## Entities -/

/-- `Partition::new`; `disk` is what the data directory of the worker holds -/
def new (config : PartConfig) (disk : FnvHashMap EntityName Entity) : Partition :=
  { entities := ∅, archive := if config.enableArchive then some disk else none, behaviors := ∅, machines := [], config }

def fromModel (load : Loader) (model : Model) (config : PartConfig) (disk : FnvHashMap EntityName Entity) : Partition :=
  (new config disk).spawnNonEntityBound load model

/-- memory only; a hit stamps the access time -/
def getEntity (part : Partition) (now : UInt32) (name : EntityName) : Partition × Except Error Entity :=
  match part.entities.lookup name with
  | some e =>
    let e := { e with meta_ := { e.meta_ with lastAccess := some now } }
    ({ part with entities := part.entities.insert name e }, .ok e)
  | none => (part, .error (.failedGettingEntityByName name))

def addEntity (load : Loader) (part : Partition) (name : EntityName) (entity : Entity) (model : Model) :
    Partition × Except Error Unit :=
  match part.spawnAll load (.entity name) (model.behaviors.filter (InstancedFor entity.components)) with
  | (part', .error e) => (part', .error e)
  | (part', .ok ()) =>
    if part'.config.entityCreateToArchive then
      match part'.archive with
      | none => (part', .error .archiveDisabled)
      | some a => ({ part' with archive := some (a.insert name entity) }, .ok ())
    else ({ part' with entities := part'.entities.insert name entity }, .ok ())

def spawnEntity (load : Loader) (part : Partition) (name : EntityName) (prefab : Option PrefabName)
    (data : List (LocalAddress × Var)) (model : Model) : Partition × Except Error Unit :=
  let made : Except Error Entity := do
    let e ← match prefab with
      | some p => Entity.fromPrefabName p model
      | none => .ok .empty
    let storage ← data.foldlM (fun st av => st.setFromVar av.1 av.2) e.storage
    return { e with storage }
  match made with
  | .error e => (part, .error e)
  | .ok entity => part.addEntity load name entity model

/-- drops the behaviors bound to the entity, then the entity: from memory, else from the archive, where removing an
absent key succeeds -/
def removeEntity (part : Partition) (name : EntityName) : Partition × Except Error Unit :=
  let part := { part with behaviors := part.behaviors.erase (.entity name) }
  if name ∈ part.entities then ({ part with entities := part.entities.erase name }, .ok ())
  else match part.archive with
    | none => (part, .error .archiveDisabled)
    | some a => ({ part with archive := some (a.erase name) }, .ok ())

/-- the order in which a map of entities is iterated -/
structure EntityOrder where
  names : FnvHashMap EntityName Entity → List EntityName
  complete : ∀ map, (names map : Multiset EntityName) = map.keys.val

/-- the loop over the entities to archive: each leaves the memory before it is written -/
def moveToArchive : List EntityName → Partition → Partition × Except Error Unit
  | [], part => (part, .ok ())
  | name :: names, part =>
    match part.entities.lookup name with
    | none => moveToArchive names part
    | some e =>
      match part.archive with
      | none => ({ part with entities := part.entities.erase name }, .error .archiveDisabled)
      | some a =>
        moveToArchive names { part with entities := part.entities.erase name, archive := some (a.insert name e) }

/-- `archive_entities`; `clock` is the time when the loop looks at an entity -/
def archiveEntities (order : EntityOrder) (clock : EntityName → UInt32) (part : Partition) :
    Partition × Except Error ℕ :=
  if part.config.autoArchiveEntities then
    let toArchive := (order.names part.entities).filter fun name =>
      (part.entities.lookup name).any (·.idle part.config.archiveEntityAfterSecs (clock name))
    match part.moveToArchive toArchive with
    | (part, .ok ()) => (part, .ok toArchive.length)
    | (part, .error e) => (part, .error e)
  else (part, .ok 0)

/-- the arm of `PullConfig`: an archive that is open stays open, and none is opened -/
def pullConfig (config : PartConfig) (part : Partition) : Partition := { part with config }

/-! ## What the partition holds -/

/-- the archived copy of an entity -/
def archived (part : Partition) (name : EntityName) : Option Entity := part.archive.bind (·.lookup name)

/-- the copy the partition answers with: the one in memory, else the archived one -/
def copyOf (part : Partition) (name : EntityName) : Option Entity :=
  part.entities.lookup name <|> part.archived name

/-- the partition holds nothing else than before: only behaviors may differ -/
structure SameEntities (part part' : Partition) : Prop where
  entities : part'.entities = part.entities
  archive : part'.archive = part.archive
  config : part'.config = part.config

theorem SameEntities.refl (part : Partition) : SameEntities part part := ⟨rfl, rfl, rfl⟩

theorem SameEntities.trans {p q r : Partition} (h₁ : SameEntities p q) (h₂ : SameEntities q r) : SameEntities p r :=
  ⟨h₂.entities.trans h₁.entities, h₂.archive.trans h₁.archive, h₂.config.trans h₁.config⟩

theorem SameEntities.archived {p q : Partition} (h : SameEntities p q) (x : EntityName) :
    q.archived x = p.archived x := by
  simp only [Partition.archived, h.archive]

theorem SameEntities.copyOf {p q : Partition} (h : SameEntities p q) (x : EntityName) : q.copyOf x = p.copyOf x := by
  simp only [Partition.copyOf, h.entities, h.archived]

theorem spawnOntoPartition_same (load : Loader) (part : Partition) (target : BehaviorTarget) (b : BehaviorModel) :
    SameEntities part (part.spawnOntoPartition load target b).1 := by
  unfold spawnOntoPartition
  cases b.inner with
  | machine => exact ⟨rfl, rfl, rfl⟩
  | lua synced => cases synced <;> exact ⟨rfl, rfl, rfl⟩
  | dynlib _ _ synced =>
    simp only
    cases load b with
    | error e => exact SameEntities.refl part
    | ok u => cases synced <;> exact ⟨rfl, rfl, rfl⟩

theorem spawnAll_same (load : Loader) (part : Partition) (target : BehaviorTarget) (bs : List BehaviorModel) :
    SameEntities part (part.spawnAll load target bs).1 := by
  induction bs generalizing part with
  | nil => exact SameEntities.refl part
  | cons b bs ih =>
    have hb := spawnOntoPartition_same load part target b
    simp only [spawnAll]
    split
    · rename_i part' heq
      rw [heq] at hb
      exact hb.trans (ih part')
    · rename_i part' e heq
      rw [heq] at hb
      exact hb

theorem spawnAll_ok {load : Loader} (hload : ∀ b, load b = .ok ()) (part : Partition) (target : BehaviorTarget)
    (bs : List BehaviorModel) : (part.spawnAll load target bs).2 = .ok () := by
  induction bs generalizing part with
  | nil => rfl
  | cons b bs ih =>
    have hb : (part.spawnOntoPartition load target b).2 = .ok () := by
      unfold spawnOntoPartition
      cases b.inner <;> simp [hload]
    simp only [spawnAll]
    split
    · exact ih _
    · rename_i part' e heq
      rw [heq] at hb
      exact absurd hb (by simp)

/-- **What `add_entity` can do.** Spawning behaviors may fail or archiving may be off: no entity changes. Otherwise
the entity is in the archive or in memory, as the configuration says. -/
theorem addEntity_cases (load : Loader) (part : Partition) (name : EntityName) (entity : Entity) (model : Model) :
    ∃ part', SameEntities part part' ∧
      ((∃ e, part.addEntity load name entity model = (part', .error e)) ∨
        (∃ a, part.config.entityCreateToArchive = true ∧ part.archive = some a ∧
          part.addEntity load name entity model = ({ part' with archive := some (a.insert name entity) }, .ok ())) ∨
        (part.config.entityCreateToArchive = false ∧
          part.addEntity load name entity model =
            ({ part' with entities := part'.entities.insert name entity }, .ok ()))) := by
  have hs := spawnAll_same load part (.entity name) (model.behaviors.filter (InstancedFor entity.components))
  unfold addEntity
  split
  · rename_i part' e heq
    rw [heq] at hs
    exact ⟨part', hs, .inl ⟨e, rfl⟩⟩
  · rename_i part' heq
    rw [heq] at hs
    change SameEntities part part' at hs
    refine ⟨part', hs, ?_⟩
    simp only [hs.config, hs.archive]
    split_ifs with hc
    · cases ha : part.archive with
      | none => exact .inl ⟨_, rfl⟩
      | some a => exact .inr (.inl ⟨a, hc, rfl, rfl⟩)
    · exact .inr (.inr ⟨by simpa using hc, rfl⟩)

/-- with every library loadable, the entity is refused only when it should go to an archive that is off -/
theorem addEntity_ok {load : Loader} (hload : ∀ b, load b = .ok ()) {part : Partition}
    (h : part.config.entityCreateToArchive = true → part.archive.isSome = true) (name : EntityName) (entity : Entity)
    (model : Model) : (part.addEntity load name entity model).2 = .ok () := by
  have hs := spawnAll_same load part (.entity name) (model.behaviors.filter (InstancedFor entity.components))
  have ho := spawnAll_ok hload part (.entity name) (model.behaviors.filter (InstancedFor entity.components))
  unfold addEntity
  split
  · rename_i part' e heq
    rw [heq] at ho
    exact absurd ho (by simp)
  · rename_i part' heq
    rw [heq] at hs
    change SameEntities part part' at hs
    simp only [hs.config, hs.archive]
    split_ifs with hc
    · obtain ⟨a, ha⟩ := Option.isSome_iff_exists.mp (h hc)
      rw [ha]
    · rfl

/-- what an operation on entity `x` leaves alone: every other entity, the configuration, whether there is an archive -/
structure FrameAt (x : EntityName) (part part' : Partition) : Prop where
  entities : ∀ y, y ≠ x → part'.entities.lookup y = part.entities.lookup y
  archived : ∀ y, y ≠ x → part'.archived y = part.archived y
  config : part'.config = part.config
  archive : part'.archive.isSome = part.archive.isSome

theorem SameEntities.frameAt {p q : Partition} (h : SameEntities p q) (x : EntityName) : FrameAt x p q :=
  ⟨fun _ _ => by rw [h.entities], fun y _ => h.archived y, h.config, by rw [h.archive]⟩

theorem addEntity_frame (load : Loader) (part : Partition) (name : EntityName) (entity : Entity) (model : Model) :
    FrameAt name part (part.addEntity load name entity model).1 := by
  obtain ⟨part', hs, ⟨e, h⟩ | ⟨a, -, ha, h⟩ | ⟨-, h⟩⟩ := addEntity_cases load part name entity model
  · rw [h]; exact hs.frameAt name
  · rw [h]
    refine ⟨fun y _ => by rw [hs.entities], fun y hy => ?_, hs.config, by simp [ha]⟩
    simp only [Partition.archived, ha, Option.bind_some, Finmap.lookup_insert_of_ne _ hy]
  · rw [h]
    refine ⟨fun y hy => ?_, fun y _ => hs.archived y, hs.config, by simp [hs.archive]⟩
    simp only [Finmap.lookup_insert_of_ne _ hy, hs.entities]

theorem getEntity_cases (part : Partition) (now : UInt32) (name : EntityName) :
    (part.entities.lookup name = none ∧
        part.getEntity now name = (part, .error (.failedGettingEntityByName name))) ∨
      ∃ e, part.entities.lookup name = some e ∧
        part.getEntity now name =
          ({ part with
              entities := part.entities.insert name { e with meta_ := { e.meta_ with lastAccess := some now } } },
            .ok { e with meta_ := { e.meta_ with lastAccess := some now } }) := by
  unfold getEntity
  cases part.entities.lookup name with
  | none => exact .inl ⟨rfl, rfl⟩
  | some e => exact .inr ⟨e, rfl, rfl⟩

/-- **What `remove_entity` can do.** A copy in memory goes first and leaves the archived one; without one in memory
the archived copy goes, and without an archive the answer is an error. -/
theorem removeEntity_cases (part : Partition) (name : EntityName) :
    let part₁ := { part with behaviors := part.behaviors.erase (.entity name) }
    (name ∈ part.entities ∧
        part.removeEntity name = ({ part₁ with entities := part.entities.erase name }, .ok ())) ∨
      (name ∉ part.entities ∧ part.archive = none ∧ part.removeEntity name = (part₁, .error .archiveDisabled)) ∨
      ∃ a, name ∉ part.entities ∧ part.archive = some a ∧
        part.removeEntity name = ({ part₁ with archive := some (a.erase name) }, .ok ()) := by
  simp only [removeEntity]
  split_ifs with hm
  · exact .inl ⟨hm, rfl⟩
  · cases ha : part.archive with
    | none => exact .inr (.inl ⟨hm, rfl, rfl⟩)
    | some a => exact .inr (.inr ⟨a, hm, rfl, rfl⟩)

theorem removeEntity_frame (part : Partition) (name : EntityName) : FrameAt name part (part.removeEntity name).1 := by
  rcases removeEntity_cases part name with ⟨-, h⟩ | ⟨-, ha, h⟩ | ⟨a, -, ha, h⟩
  · rw [h]
    exact ⟨fun y hy => Finmap.lookup_erase_ne hy, fun _ _ => rfl, rfl, rfl⟩
  · rw [h]
    exact ⟨fun _ _ => rfl, fun _ _ => rfl, rfl, rfl⟩
  · rw [h]
    refine ⟨fun _ _ => rfl, fun y hy => ?_, rfl, by simp [ha]⟩
    simp only [Partition.archived, ha, Option.bind_some, Finmap.lookup_erase_ne hy]

end Partition

end BigWorlds
