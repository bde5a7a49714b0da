/-
Entities and the model they are made from (`entity/mod.rs`, `entity/storage.rs`, `model/mod.rs`, `model/behavior.rs`,
`address.rs`).

A hash map is a `Finmap`. Only what the modelled requests read is kept: of a model its prefabs, components, behaviors
and starting entities; of a behavior its triggers, targets and which kind of task it spawns. The `Wasm` kind is left
out: spawning it is `todo!()`.
-/
import Mathlib.Data.Finmap
import BigWorlds.Error
import BigWorlds.Model.Var

namespace BigWorlds

abbrev EntityName := String
abbrev PrefabName := String
abbrev CompName := String
abbrev VarName := String
abbrev EventName := String

abbrev FnvHashMap (κ ν : Type) := Finmap fun _ : κ => ν

theorem FnvHashMap.mem_keys {κ ν : Type} [DecidableEq κ] {m : FnvHashMap κ ν} {k : κ} {v : ν}
    (h : m.lookup k = some v) : k ∈ m.keys := Finmap.mem_keys.mpr (Finmap.mem_iff.mpr ⟨v, h⟩)

/-! ## Addresses -/

abbrev StorageIndex := CompName × VarName

structure LocalAddress where
  comp : CompName
  varType : VarType
  varName : VarName
deriving DecidableEq, Repr

structure Address where
  entity : EntityName
  comp : CompName
  varType : VarType
  varName : VarName
deriving DecidableEq, Repr

def Address.toLocal (a : Address) : LocalAddress := ⟨a.comp, a.varType, a.varName⟩

def LocalAddress.asStorageIndex (a : LocalAddress) : StorageIndex := (a.comp, a.varName)

/-! ## Storage -/

structure Storage where
  map : FnvHashMap StorageIndex Var
deriving DecidableEq

namespace Storage

def default : Storage := ⟨∅⟩

def getVar (s : Storage) (idx : StorageIndex) : Except Error Var :=
  match s.map.lookup idx with
  | some v => .ok v
  | none => .error (.failedGettingVarFromEntityStorage idx.1 idx.2)

def insert (s : Storage) (idx : StorageIndex) (var : Var) : Storage := ⟨s.map.insert idx var⟩

/-- writes an existing variable; the stored type is not checked -/
def setFromVar (s : Storage) (target : LocalAddress) (var : Var) : Except Error Storage := do
  let _ ← s.getVar target.asStorageIndex
  return s.insert target.asStorageIndex var

theorem setFromVar_ok {s s' : Storage} {target : LocalAddress} {var : Var} (h : s.setFromVar target var = .ok s') :
    s' = s.insert target.asStorageIndex var ∧ (s.map.lookup target.asStorageIndex).isSome = true := by
  unfold setFromVar getVar at h
  cases hv : s.map.lookup target.asStorageIndex with
  | none => rw [hv] at h; exact absurd h (by rintro ⟨⟩)
  | some v => rw [hv] at h; exact ⟨(Except.ok.inj h).symm, rfl⟩

@[simp] theorem lookup_insert_self (s : Storage) (idx : StorageIndex) (var : Var) :
    (s.insert idx var).map.lookup idx = some var := Finmap.lookup_insert _

theorem lookup_insert_ne (s : Storage) {idx idx' : StorageIndex} (var : Var) (h : idx' ≠ idx) :
    (s.insert idx var).map.lookup idx' = s.map.lookup idx' := Finmap.lookup_insert_of_ne _ h

end Storage

/-! ## Model -/

/-- variable model (`model::Var`) -/
structure VarModel where
  name : VarName
  type_ : VarType
  default : Option Var
deriving DecidableEq, Repr

structure Component where
  name : CompName
  vars : List VarModel
deriving DecidableEq, Repr

structure PrefabModel where
  name : PrefabName
  components : List CompName
deriving DecidableEq, Repr

inductive InstancingTarget where
  | globalSingleton
  | perWorker
  | perEntityWithAllComponents (comps : List CompName)
  | perEntityWithAnyComponent (comps : List CompName)
  | perEntityWithAllVars (vars : List VarName)
deriving DecidableEq, Repr

inductive BehaviorInner where
  | machine
  | lua (synced : Bool)
  | dynlib (artifact : List UInt8) (entry : String) (synced : Bool)
deriving DecidableEq, Repr

/-- behavior model (`model::Behavior`) -/
structure BehaviorModel where
  name : String
  triggers : List EventName
  targets : List InstancingTarget
  inner : BehaviorInner
deriving DecidableEq, Repr

/-- an entity to be spawned at startup (`model::Entity`); `data` lists its initial values in the order of the hash map -/
structure EntityModel where
  name : EntityName
  prefab : Option PrefabName
  data : List (LocalAddress × Var)
deriving DecidableEq, Repr

structure Model where
  prefabs : List PrefabModel
  components : List Component
  behaviors : List BehaviorModel
  entities : List EntityModel
deriving DecidableEq, Repr

namespace Model

def getPrefab (m : Model) (name : PrefabName) : Option PrefabModel := m.prefabs.find? fun p => p.name = name

def getComponent (m : Model) (name : CompName) : Except Error Component :=
  match m.components.find? fun c => c.name = name with
  | some c => .ok c
  | none => .error (.noComponentModel name)

end Model

/-! ## Entities -/

structure EntityMeta where
  lastMoved : Option UInt32
  lastAccess : Option UInt32
deriving DecidableEq, Repr

structure Entity where
  storage : Storage
  components : List CompName
  meta_ : EntityMeta
deriving DecidableEq

namespace Entity

def empty : Entity := ⟨.default, [], ⟨none, none⟩⟩

def attach (e : Entity) (component : CompName) (model : Model) : Except Error Entity := do
  let compModel ← model.getComponent component
  let storage := compModel.vars.foldl
    (fun st v => st.insert (component, v.name) (v.default.getD v.type_.defaultValue)) e.storage
  return { e with storage, components := e.components ++ [component] }

def fromPrefab (prefab : PrefabModel) (model : Model) : Except Error Entity :=
  prefab.components.foldlM (fun e comp => e.attach comp model) .empty

def fromPrefabName (prefab : PrefabName) (model : Model) : Except Error Entity :=
  match model.getPrefab prefab with
  | some p => fromPrefab p model
  | none => .error (.noEntityPrefab prefab)

/-- what a migration must carry over: the variables and the component list -/
def data (e : Entity) : Storage × List CompName := (e.storage, e.components)

end Entity

end BigWorlds
