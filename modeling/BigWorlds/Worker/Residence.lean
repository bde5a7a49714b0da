/-
The residence of entities (`worker/part.rs`; the arm of `PullConfig` in `worker/manager.rs`).

An entity is in memory or in the archive. An addition writes to the store that the configuration says and never looks
at the other one; a removal takes the copy in memory and leaves the archived one. So a name that is added twice, with
the configuration changed or the entity archived in between, is in both places.

- `step_iff`: archiving, removals and configurations keep one residence, and an addition does if it does not land or
  the other store does not have the name;
- `one_residence_iff`: the exact condition along a run;
- `two_residences`: an entity that is added again after the configuration changed.
-/
import BigWorlds.Core.Run
import BigWorlds.Worker.Partition

namespace BigWorlds

namespace Partition

/-! ## What the operations write -/

/-- the library of the behavior loads, if it has one -/
def Loads (load : Loader) (b : BehaviorModel) : Bool :=
  match b.inner with
  | .dynlib _ _ _ => (load b).toBool
  | _ => true

theorem spawnOntoPartition_isOk {load : Loader} {part : Partition} {target : BehaviorTarget} {b : BehaviorModel} :
    (part.spawnOntoPartition load target b).2 = .ok () ↔ Loads load b = true := by
  unfold spawnOntoPartition Loads
  cases b.inner with
  | dynlib artifact debug synced => cases load b <;> simp [Except.toBool]
  | machine => simp
  | lua synced => simp

/-- all behaviors are spawned if every library loads -/
theorem spawnAll_isOk {load : Loader} {part : Partition} {target : BehaviorTarget} {bs : List BehaviorModel} :
    (part.spawnAll load target bs).2 = .ok () ↔ ∀ b ∈ bs, Loads load b = true := by
  induction bs generalizing part with
  | nil => simp [spawnAll]
  | cons b bs ih =>
    rw [List.forall_mem_cons, ← @spawnOntoPartition_isOk load part target b, spawnAll]
    split
    · rename_i part' heq
      rw [ih, heq]
      simp
    · rename_i part' e heq
      rw [heq]
      simp

/-- the addition goes through: the libraries of the entity's behaviors load, and if entities are created in the
archive there is one -/
structure Lands (load : Loader) (part : Partition) (entity : Entity) (model : Model) : Prop where
  loads : ∀ b ∈ model.behaviors.filter (InstancedFor entity.components), Loads load b = true
  archive : part.config.entityCreateToArchive = true → part.archive.isSome = true

theorem lands_iff {load : Loader} {part : Partition} {name : EntityName} {entity : Entity} {model : Model} :
    part.Lands load entity model ↔ (part.addEntity load name entity model).2 = .ok () := by
  have hs := spawnAll_same load part (.entity name) (model.behaviors.filter (InstancedFor entity.components))
  have hok := @spawnAll_isOk load part (.entity name) (model.behaviors.filter (InstancedFor entity.components))
  unfold addEntity
  split
  · rename_i part' e heq
    rw [heq] at hok
    exact iff_of_false (fun h => absurd (hok.mpr h.loads) (by simp)) (by simp)
  · rename_i part' heq
    rw [heq] at hs hok
    change SameEntities part part' at hs
    have hloads := hok.mp rfl
    simp only [hs.config, hs.archive]
    split_ifs with hc
    · cases ha : part.archive with
      | none => exact iff_of_false (fun h => absurd (h.archive hc) (by simp [ha])) (by simp)
      | some a => exact iff_of_true ⟨hloads, fun _ => by simp [ha]⟩ rfl
    · exact iff_of_true ⟨hloads, fun h => absurd h hc⟩ rfl

/-- the entity that `spawn_entity` makes -/
def spawned (prefab : Option PrefabName) (data : List (LocalAddress × Var)) (model : Model) : Except Error Entity := do
  let e ← match prefab with
    | some p => Entity.fromPrefabName p model
    | none => .ok .empty
  let storage ← data.foldlM (fun st av => st.setFromVar av.1 av.2) e.storage
  return { e with storage }

theorem spawnEntity_eq (load : Loader) (part : Partition) (name : EntityName) (prefab : Option PrefabName)
    (data : List (LocalAddress × Var)) (model : Model) :
    part.spawnEntity load name prefab data model =
      match spawned prefab data model with
      | .error e => (part, .error e)
      | .ok entity => part.addEntity load name entity model := rfl

/-- the loop of `archive_entities` moves entities out of the memory, into the archive if there is one -/
theorem moveToArchive_cases (names : List EntityName) (part : Partition) (name : EntityName) :
    ((part.moveToArchive names).1.entities.lookup name = part.entities.lookup name ∧
        (part.moveToArchive names).1.archived name = part.archived name) ∨
      (part.moveToArchive names).1.entities.lookup name = none := by
  induction names generalizing part with
  | nil => exact Or.inl ⟨rfl, rfl⟩
  | cons n names ih =>
    unfold moveToArchive
    cases he : part.entities.lookup n with
    | none => exact ih part
    | some e =>
      cases ha : part.archive with
      | none =>
        by_cases hn : name = n
        · exact Or.inr (hn ▸ Finmap.lookup_erase n part.entities)
        · exact Or.inl ⟨Finmap.lookup_erase_ne hn, by simp [Partition.archived, ha]⟩
      | some a =>
        rcases ih { part with entities := part.entities.erase n, archive := some (a.insert n e) } with ⟨h, h'⟩ | h
        · by_cases hn : name = n
          · exact Or.inr (h.trans (hn ▸ Finmap.lookup_erase n part.entities))
          · refine Or.inl ⟨h.trans (Finmap.lookup_erase_ne hn), h'.trans ?_⟩
            simp only [Partition.archived, ha, Option.bind_some, Finmap.lookup_insert_of_ne _ hn]
        · exact Or.inr h

theorem archiveEntities_cases (order : EntityOrder) (clock : EntityName → UInt32) (part : Partition)
    (name : EntityName) :
    ((part.archiveEntities order clock).1.entities.lookup name = part.entities.lookup name ∧
        (part.archiveEntities order clock).1.archived name = part.archived name) ∨
      (part.archiveEntities order clock).1.entities.lookup name = none := by
  unfold archiveEntities
  split_ifs
  · have h := moveToArchive_cases ((order.names part.entities).filter fun name =>
      (part.entities.lookup name).any (·.idle part.config.archiveEntityAfterSecs (clock name))) part name
    dsimp only
    split <;> rename_i heq <;> rwa [heq] at h
  · exact Or.inl ⟨rfl, rfl⟩

end Partition

/-! ## Runs -/

inductive PartOp where
  | addEntity (load : Loader) (name : EntityName) (entity : Entity) (model : Model)
  | spawnEntity (load : Loader) (name : EntityName) (prefab : Option PrefabName) (data : List (LocalAddress × Var))
      (model : Model)
  | removeEntity (name : EntityName)
  | archiveEntities (order : Partition.EntityOrder) (clock : EntityName → UInt32)
  | pullConfig (config : PartConfig)

namespace PartOp

/-- an operation that fails keeps what it did before it failed -/
def step (part : Partition) : PartOp → Partition
  | .addEntity load name entity model => (part.addEntity load name entity model).1
  | .spawnEntity load name prefab data model => (part.spawnEntity load name prefab data model).1
  | .removeEntity name => (part.removeEntity name).1
  | .archiveEntities order clock => (part.archiveEntities order clock).1
  | .pullConfig config => part.pullConfig config

/-- an addition that goes through goes to a store while the other one does not have the name -/
def AddsAlone (load : Loader) (part : Partition) (name : EntityName) (entity : Entity) (model : Model) : Prop :=
  part.Lands load entity model →
    if part.config.entityCreateToArchive = true then name ∉ part.entities else part.archived name = none

/-- the condition on an operation -/
def Alone (part : Partition) : PartOp → Prop
  | .addEntity load name entity model => AddsAlone load part name entity model
  | .spawnEntity load name prefab data model =>
    ∀ entity, Partition.spawned prefab data model = .ok entity → AddsAlone load part name entity model
  | _ => True

end PartOp

/-- no name is both in memory and in the archive -/
def OneResidence (part : Partition) : Prop := ∀ name, name ∈ part.entities → part.archived name = none

theorem oneResidence_of {part part' : Partition} (h : OneResidence part)
    (hsame : ∀ name, (part'.entities.lookup name = part.entities.lookup name ∧
      part'.archived name = part.archived name) ∨ part'.entities.lookup name = none ∨ part'.archived name = none) :
    OneResidence part' := by
  intro name hmem
  rcases hsame name with ⟨hentities, harchived⟩ | hnone | hnone
  · rw [harchived]
    refine h name (Finmap.lookup_isSome.mp ?_)
    rw [← hentities]
    exact Finmap.lookup_isSome.mpr hmem
  · exact absurd hmem (Finmap.lookup_eq_none.mp hnone)
  · exact hnone

/-- an addition keeps one residence exactly if it does not land or lands alone -/
theorem addEntity_iff {load : Loader} {part : Partition} {name : EntityName} {entity : Entity} {model : Model}
    (h : OneResidence part) :
    OneResidence (part.addEntity load name entity model).1 ↔ PartOp.AddsAlone load part name entity model := by
  have hlands := @Partition.lands_iff load part name entity model
  obtain ⟨part', hs, hcases⟩ := Partition.addEntity_cases load part name entity model
  have hkept : OneResidence part' :=
    oneResidence_of h fun n => Or.inl ⟨by rw [hs.entities], hs.archived n⟩
  unfold PartOp.AddsAlone
  rw [hlands]
  rcases hcases with ⟨e, hadd⟩ | ⟨a, hc, ha, hadd⟩ | ⟨hc, hadd⟩
  · rw [hadd]
    exact iff_of_true hkept fun hok => absurd hok (by simp)
  · have hthere : ({ part' with archive := some (a.insert name entity) } : Partition).archived name = some entity :=
      Finmap.lookup_insert a
    rw [hadd, if_pos hc]
    constructor
    · intro hone _ hmem
      have hnone := hone name (by rw [← hs.entities] at hmem; exact hmem)
      rw [hthere] at hnone
      cases hnone
    · intro halone
      refine oneResidence_of h fun n => ?_
      by_cases hn : n = name
      · subst hn
        refine Or.inr (Or.inl (Finmap.lookup_eq_none.mpr ?_))
        rw [hs.entities]
        exact halone rfl
      · refine Or.inl ⟨by rw [hs.entities], ?_⟩
        simp only [Partition.archived, ha, Option.bind_some, Finmap.lookup_insert_of_ne _ hn]
  · rw [hadd, if_neg (by simp [hc])]
    constructor
    · intro hone _
      rw [← hs.archived name]
      exact hone name ((Finmap.mem_insert).mpr (Or.inl rfl))
    · intro halone
      refine oneResidence_of h fun n => ?_
      by_cases hn : n = name
      · subst hn
        exact Or.inr (Or.inr ((hs.archived n).trans (halone rfl)))
      · exact Or.inl ⟨by rw [Finmap.lookup_insert_of_ne _ hn, hs.entities], hs.archived n⟩

/-- **One step.** -/
theorem step_iff {part : Partition} (op : PartOp) (h : OneResidence part) :
    OneResidence (op.step part) ↔ op.Alone part := by
  cases op with
  | addEntity load name entity model => exact addEntity_iff h
  | spawnEntity load name prefab data model =>
    simp only [PartOp.step, PartOp.Alone, Partition.spawnEntity_eq]
    cases Partition.spawned prefab data model with
    | error e => exact iff_of_true h fun entity hmade => absurd hmade (by simp)
    | ok entity => simpa using addEntity_iff h
  | removeEntity name =>
    refine iff_of_true (oneResidence_of h fun n => ?_) trivial
    simp only [PartOp.step]
    rcases part.removeEntity_cases name with ⟨-, hremove⟩ | ⟨-, -, hremove⟩ | ⟨a, -, ha, hremove⟩
    · rw [hremove]
      by_cases hn : n = name
      · exact Or.inr (Or.inl (hn ▸ Finmap.lookup_erase name part.entities))
      · exact Or.inl ⟨Finmap.lookup_erase_ne hn, rfl⟩
    · rw [hremove]
      exact Or.inl ⟨rfl, rfl⟩
    · rw [hremove]
      by_cases hn : n = name
      · exact Or.inr (Or.inr (hn ▸ Finmap.lookup_erase name a))
      · refine Or.inl ⟨rfl, ?_⟩
        simp only [Partition.archived, ha, Option.bind_some, Finmap.lookup_erase_ne hn]
  | archiveEntities order clock =>
    refine iff_of_true (oneResidence_of h fun n => ?_) trivial
    rcases part.archiveEntities_cases order clock n with hsame | hnone
    · exact Or.inl hsame
    · exact Or.inr (Or.inl hnone)
  | pullConfig config => exact iff_of_true (oneResidence_of h fun n => Or.inl ⟨rfl, rfl⟩) trivial

theorem fromModel_oneResidence (load : Loader) (model : Model) (config : PartConfig)
    (disk : FnvHashMap EntityName Entity) : OneResidence (.fromModel load model config disk) := by
  intro name hmem
  have hs : Partition.SameEntities (Partition.new config disk) (Partition.fromModel load model config disk) :=
    Partition.spawnAll_same load _ .worker _
  rw [hs.entities] at hmem
  exact absurd hmem Finmap.notMem_empty

/-- **One residence.** From a fresh partition, whatever its archive holds, no name is ever in memory and in the archive
at once, if and only if every addition that goes through goes to a store while the other one does not have the name. -/
theorem one_residence_iff (load : Loader) (model : Model) (config : PartConfig) (disk : FnvHashMap EntityName Entity)
    (ops : List PartOp) :
    (∀ n, OneResidence (Core.run (fun part op => op.step part) (.fromModel load model config disk) (ops.take n))) ↔
      Core.Along (fun part op => op.step part) (fun part op => op.Alone part) (.fromModel load model config disk)
        ops :=
  Core.run_inv_iff (fun _ op h => step_iff op h) (fromModel_oneResidence load model config disk)

/-! ## Twice the same name -/

/-- the entity is added, and added again when entities are created in the archive -/
def addedTwice : List PartOp :=
  [.addEntity (fun _ => .ok ()) "ball" .empty ⟨[], [], [], []⟩, .pullConfig { PartConfig.default with
    entityCreateToArchive := true }, .addEntity (fun _ => .ok ()) "ball" .empty ⟨[], [], [], []⟩]

theorem two_residences : ¬ ∀ (load : Loader) (model : Model) (config : PartConfig)
    (disk : FnvHashMap EntityName Entity) (ops : List PartOp), OneResidence
      (Core.run (fun part op => op.step part) (.fromModel load model config disk) ops) := by
  intro h
  have hone := h (fun _ => .ok ()) ⟨[], [], [], []⟩ .default ∅ addedTwice "ball" (Finmap.mem_insert.mpr (Or.inl rfl))
  have harchived : (Core.run (fun part op => PartOp.step part op)
      (.fromModel (fun _ => .ok ()) ⟨[], [], [], []⟩ .default ∅) addedTwice).archived "ball" = some Entity.empty := rfl
  rw [harchived] at hone
  cases hone

end BigWorlds
