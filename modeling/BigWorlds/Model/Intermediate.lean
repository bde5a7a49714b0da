/-
The model as it stands in the files, and how the model proper is made of it (`model/intermediate.rs`, `model/mod.rs`:
`Model::from_intermediate`, `Var::new`).

The key of a variable is a bare name, or has the type in front of the name, or the component and the type. In front of a
bare name with a string for its value goes `int`, with a number `string`; then the key is read. The value is converted
whatever type the key declares.

- `fromEntry_ok_iff`: what variable an entry gives;
- `agrees_bare_iff`: with which values a bare name agrees;
- `fromIntermediate_ok_iff`: when the model is accepted;
- `defaults_match_iff`: the exact condition;
- `swapped`: a bare name with a string.
-/
import BigWorlds.Core.Except
import BigWorlds.Model.Merge
import BigWorlds.Text.Json

namespace BigWorlds

open Machine (ShortLocalAddress)

namespace Intermediate

structure Meta where
  name : Option String
  description : Option String
  author : Option String
  includes : List String
deriving DecidableEq, Repr

structure Dependency where
  path : Option String
  git : Option String
  version : Option String
deriving DecidableEq, Repr

/-- like all maps below, `data` lists its entries in the order of the hash map -/
structure Scenario where
  name : String
  data : List (String × Json)
deriving Repr

structure Behavior where
  name : String
  type_ : String
  path : String
  entry : String
  lib : String
  script : Option String
  synced : Bool
  debug : Bool
  tracing : String
  triggers : List EventName
  targets : List (String × List String)
deriving DecidableEq, Repr

structure Component where
  name : String
  vars : List (String × Json)
deriving Repr

structure Prefab where
  name : String
  components : List String
deriving DecidableEq, Repr

structure Entity where
  id : String
  prefab : Option String
  data : List (String × Json)
  archived : Bool
deriving Repr

structure Model where
  meta_ : Meta
  dependencies : FnvHashMap String Dependency
  scenarios : List Scenario
  behaviors : List Behavior
  components : List Component
  prefabs : List Prefab
  data : FnvHashMap String String
  dataFiles : FnvHashMap String String
  entities : List Entity

end Intermediate

/-! ## Variables -/

/-- how making a model fails: a key without a meaning, a behavior that cannot be read, or a panic -/
inductive ModelFailure where
  | invalidData (text : String)
  | behavior (e : Error)
  | panic
deriving DecidableEq, Repr

namespace Machine

def ShortLocalAddress.fromStrWithType (s : String) (varType : VarType) : Except ModelFailure ShortLocalAddress :=
  match Core.split '.' s with
  | [_] => .ok ⟨none, varType, s⟩
  | _ => .error (.invalidData "")

end Machine

section
variable (asF32 : JsonNumber → UInt32)

/-- the address that the key stands for, without a type in it that of the value -/
def VarModel.addressOf (key : String) (value : Json) : Except ModelFailure ShortLocalAddress :=
  match ShortLocalAddress.fromStr key with
  | .ok addr => .ok addr
  | .error .panic => .error .panic
  | .error _ => ShortLocalAddress.fromStrWithType key (VarType.fromJsonValue value)

/-- `Var::new` -/
def VarModel.new (key : String) (value : Json) : Except ModelFailure VarModel := do
  let addr ← addressOf key value
  match Var.fromSerde asF32 (some addr) value with
  | some default => return ⟨addr.varName, addr.varType, some default⟩
  | none => .error .panic

/-- the key with the type that goes in front of a bare name -/
def qualified (name : String) (value : Json) : String :=
  if SeparatorFree name then
    match value with
    | .string _ => VarType.int.toStr ++ "." ++ name
    | .number _ => VarType.string.toStr ++ "." ++ name
    | _ => name
  else name

/-- one entry of the variables of a component -/
def VarModel.fromEntry (name : String) (value : Json) : Except ModelFailure VarModel :=
  VarModel.new asF32 (qualified name value) value

/-! ## The model -/

def Component.fromIntermediate (c : Intermediate.Component) : Except ModelFailure Component := do
  return ⟨c.name, ← c.vars.mapM fun e => VarModel.fromEntry asF32 e.1 e.2⟩

/-- one entry of the data of an entity; reading the address and converting the value may panic -/
def EntityModel.datum (e : String × Json) : Except ModelFailure (LocalAddress × Var) :=
  match LocalAddress.fromStr e.1, Var.fromSerde asF32 none e.2 with
  | .ok addr, some var => .ok (addr, var)
  | _, _ => .error .panic

/-- of the entries with one address the last counts -/
def EntityModel.collect (data : List (LocalAddress × Var)) : List (LocalAddress × Var) :=
  data.foldl (fun map e => map.filter (fun e' => e'.1 ≠ e.1) ++ [e]) []

def EntityModel.fromIntermediate (e : Intermediate.Entity) : Except ModelFailure EntityModel := do
  return ⟨e.id, e.prefab, collect (← e.data.mapM (EntityModel.datum asF32))⟩

/-- `Model::from_intermediate`. Making a behavior reads files and may build a library, so how it ends is an argument. -/
def FullModel.fromIntermediate (load : Intermediate.Behavior → Except Error BehaviorModel) (im : Intermediate.Model) :
    Except ModelFailure FullModel := do
  let components ← im.components.mapM (Component.fromIntermediate asF32)
  let behaviors ← im.behaviors.mapM fun b => (load b).mapError .behavior
  let entities ← im.entities.mapM (EntityModel.fromIntermediate asF32)
  return { FullModel.default with
    scenarios := im.scenarios.map fun s => ⟨s.name⟩
    prefabs := im.prefabs.map fun p => ⟨p.name, p.components⟩
    components, behaviors, entities }

end

/-! ## Keys -/

theorem split_eq_singleton_iff {key name : String} : Core.split '.' key = [name] ↔ key = name ∧ SeparatorFree name := by
  have hjoined : Core.joined '.' [name] = name := by
    apply String.toList_inj.mp
    simp [Core.joined, List.intercalate]
  rw [Core.split_eq_iff (List.cons_ne_nil name []), hjoined, List.forall_mem_singleton]
  exact Iff.rfl

/-- the type that a bare name is declared with -/
def bareType : Json → VarType
  | .string _ => .int
  | .number _ => .string
  | v => VarType.fromJsonValue v

/-- the component, the type and the name that the key of an entry declares -/
def declared (key : String) (value : Json) : Option ShortLocalAddress :=
  match Core.split '.' key with
  | [name] => some ⟨none, bareType value, name⟩
  | [varType, name] => (VarType.fromStr varType).map fun t => ⟨none, t, name⟩
  | [comp, varType, name] => (VarType.fromStr varType).map fun t => ⟨some comp, t, name⟩
  | _ => none

theorem fromStr_qualified {t : VarType} (h : t.readable = true) {name : String} (hname : SeparatorFree name) :
    ShortLocalAddress.fromStr (t.toStr ++ "." ++ name) = .ok ⟨none, t, name⟩ :=
  (@ShortLocalAddress.fromStr_toString_iff ⟨none, t, name⟩ ⟨by simp, hname⟩).mpr h

/-- a bare name gets its type -/
theorem addressOf_bare {name : String} (h : SeparatorFree name) (value : Json) :
    VarModel.addressOf (qualified name value) value = .ok ⟨none, bareType value, name⟩ := by
  have hsplit : Core.split '.' name = [name] := split_eq_singleton_iff.2 ⟨rfl, h⟩
  have hbare : VarModel.addressOf name value = .ok ⟨none, VarType.fromJsonValue value, name⟩ := by
    simp only [VarModel.addressOf, ShortLocalAddress.fromStr, hsplit, ShortLocalAddress.fromStrWithType]
  have hfront : ∀ {t : VarType}, t.readable = true →
      VarModel.addressOf (t.toStr ++ "." ++ name) value = .ok ⟨none, t, name⟩ := by
    intro t ht
    simp only [VarModel.addressOf, fromStr_qualified ht h]
  unfold qualified
  rw [if_pos h]
  cases value with
  | string s => exact hfront rfl
  | number n => exact hfront rfl
  | _ => exact hbare

theorem addressOf_qualified {key : String} {value : Json} {addr : ShortLocalAddress} :
    VarModel.addressOf (qualified key value) value = .ok addr ↔ declared key value = some addr := by
  by_cases h : SeparatorFree key
  · rw [addressOf_bare h, declared, split_eq_singleton_iff.2 ⟨rfl, h⟩]
    simp only [Except.ok.injEq, Option.some.injEq]
  · have hsplit : ∀ name, Core.split '.' key ≠ [name] := by
      intro name hname
      obtain ⟨rfl, hfree⟩ := split_eq_singleton_iff.1 hname
      exact h hfree
    unfold qualified VarModel.addressOf ShortLocalAddress.fromStr ShortLocalAddress.fromStrWithType declared
    rw [if_neg h]
    match hparts : Core.split '.' key with
    | [] => simp
    | [name] => exact absurd hparts (hsplit name)
    | [varType, name] =>
      simp only [VarType.read]
      cases VarType.fromStr varType <;> simp [bind, Except.bind, pure, Except.pure]
    | [comp, varType, name] =>
      simp only [VarType.read]
      cases VarType.fromStr varType <;> simp [bind, Except.bind, pure, Except.pure]
    | _ :: _ :: _ :: _ :: _ => simp

/-! ## Entries -/

section
variable {asF32 : JsonNumber → UInt32} {key : String} {value : Json} {v : VarModel}

/-- the variable that an entry gives -/
theorem fromEntry_ok_iff : VarModel.fromEntry asF32 key value = .ok v ↔
    ∃ addr d, declared key value = some addr ∧ Var.fromSerde asF32 (some addr) value = some d ∧
      v = ⟨addr.varName, addr.varType, some d⟩ := by
  simp only [← addressOf_qualified, VarModel.fromEntry, VarModel.new]
  cases VarModel.addressOf (qualified key value) value with
  | error err => simp [bind, Except.bind]
  | ok addr =>
    cases hd : Var.fromSerde asF32 (some addr) value <;>
      simp [bind, Except.bind, pure, Except.pure, hd, eq_comm]

/-- the key is read and the value is converted -/
def Accepted (key : String) (value : Json) : Prop :=
  ∃ addr, declared key value = some addr ∧ Json.storable addr.varType value = true

theorem fromEntry_accepted_iff : (∃ v, VarModel.fromEntry asF32 key value = .ok v) ↔ Accepted key value := by
  simp only [fromEntry_ok_iff, Accepted, ← @fromSerde_isSome asF32, Option.isSome_iff_exists]
  constructor
  · rintro ⟨_, addr, d, haddr, hd, rfl⟩
    exact ⟨addr, haddr, d, hd⟩
  · rintro ⟨addr, haddr, d, hd⟩
    exact ⟨_, addr, d, haddr, hd, rfl⟩

/-- the variable has a default of its type, which for a bare name is that of the value -/
def Right (key : String) (value : Json) (v : VarModel) : Prop :=
  (∃ d, v.default = some d ∧ d.getType = v.type_) ∧ (SeparatorFree key → v.type_ = VarType.fromJsonValue value)

/-- the type that the key declares is the one that the value is stored with, and for a bare name that of the value -/
def Agrees (key : String) (value : Json) : Prop :=
  ∀ addr, declared key value = some addr →
    Json.storedAs addr.varType value = addr.varType ∧ (SeparatorFree key → addr.varType = VarType.fromJsonValue value)

theorem right_iff (h : VarModel.fromEntry asF32 key value = .ok v) : Right key value v ↔ Agrees key value := by
  obtain ⟨addr, d, haddr, hd, rfl⟩ := fromEntry_ok_iff.1 h
  rw [Agrees, haddr]
  constructor
  · rintro ⟨⟨d', hd', htype⟩, hbare⟩ addr' haddr'
    obtain rfl := Option.some.inj haddr'
    obtain rfl := Option.some.inj hd'
    exact ⟨(fromSerde_getType hd).symm.trans htype, hbare⟩
  · intro hagrees
    obtain ⟨htype, hbare⟩ := hagrees addr rfl
    exact ⟨⟨d, rfl, (fromSerde_getType hd).trans htype⟩, hbare⟩

/-- a bare name agrees with a truth value, an object, and an array that is stored without a type of its own -/
theorem agrees_bare_iff (h : SeparatorFree key) : Agrees key value ↔
    (∃ b, value = .bool b) ∨ (∃ m, value = .object m) ∨ ∃ l, value = .array l ∧ value.storedType = .list := by
  have hdeclared : declared key value = some ⟨none, bareType value, key⟩ := by
    rw [declared, split_eq_singleton_iff.2 ⟨rfl, h⟩]
  simp only [Agrees, hdeclared, Option.some.injEq, forall_eq', h, true_implies]
  cases value with
  | number n => cases n <;> simp [bareType, Json.storedAs, Json.storedType]
  | _ => simp [bareType, VarType.fromJsonValue, Json.storedAs, Json.storedType]

end

/-! ## The whole model -/

namespace Intermediate

/-- the entry of an entity's data has an address and a value that is converted -/
def DatumAccepted (e : String × Json) : Prop := (∃ addr, LocalAddress.fromStr e.1 = .ok addr) ∧ e.2.fits = true

/-- every entry of a component and of an entity is accepted, and every behavior can be made -/
structure Model.Accepted (load : Behavior → Except Error BehaviorModel) (im : Model) : Prop where
  components : ∀ c ∈ im.components, ∀ e ∈ c.vars, BigWorlds.Accepted e.1 e.2
  behaviors : ∀ b ∈ im.behaviors, ∃ model, load b = .ok model
  entities : ∀ e ∈ im.entities, ∀ d ∈ e.data, DatumAccepted d

end Intermediate

section
variable {asF32 : JsonNumber → UInt32} {load : Intermediate.Behavior → Except Error BehaviorModel}
  {im : Intermediate.Model} {model : FullModel}

theorem exists_component_iff {c : Intermediate.Component} :
    (∃ c', Component.fromIntermediate asF32 c = .ok c') ↔ ∀ e ∈ c.vars, Accepted e.1 e.2 := by
  simp only [← @fromEntry_accepted_iff asF32, ← Core.exists_mapM_ok_iff]
  constructor
  · rintro ⟨c', h⟩
    obtain ⟨vars, hvars, _⟩ := Core.bind_eq_ok.mp h
    exact ⟨vars, hvars⟩
  · rintro ⟨vars, hvars⟩
    exact ⟨⟨c.name, vars⟩, by simp only [Component.fromIntermediate, hvars]; rfl⟩

theorem exists_datum_iff {e : String × Json} :
    (∃ d, EntityModel.datum asF32 e = .ok d) ↔ Intermediate.DatumAccepted e := by
  rw [Intermediate.DatumAccepted, ← @fromSerde_none_isSome asF32, EntityModel.datum]
  cases LocalAddress.fromStr e.1 <;> cases Var.fromSerde asF32 none e.2 <;> simp

theorem exists_entity_iff {e : Intermediate.Entity} :
    (∃ e', EntityModel.fromIntermediate asF32 e = .ok e') ↔ ∀ d ∈ e.data, Intermediate.DatumAccepted d := by
  simp only [← @exists_datum_iff asF32, ← Core.exists_mapM_ok_iff]
  constructor
  · rintro ⟨e', h⟩
    obtain ⟨data, hdata, _⟩ := Core.bind_eq_ok.mp h
    exact ⟨data, hdata⟩
  · rintro ⟨data, hdata⟩
    exact ⟨⟨e.id, e.prefab, EntityModel.collect data⟩, by simp only [EntityModel.fromIntermediate, hdata]; rfl⟩

theorem fromIntermediate_ok_iff :
    (∃ model, FullModel.fromIntermediate asF32 load im = .ok model) ↔ im.Accepted load := by
  have hbehavior : ∀ b, (∃ m, (load b).mapError ModelFailure.behavior = .ok m) ↔ ∃ m, load b = .ok m := by
    intro b
    cases load b <;> simp [Except.mapError]
  constructor
  · rintro ⟨model, h⟩
    obtain ⟨components, hcomponents, h⟩ := Core.bind_eq_ok.mp h
    obtain ⟨behaviors, hbehaviors, h⟩ := Core.bind_eq_ok.mp h
    obtain ⟨entities, hentities, _⟩ := Core.bind_eq_ok.mp h
    refine ⟨fun c hc => ?_, fun b hb => ?_, fun e he => ?_⟩
    · exact exists_component_iff.1 (Core.exists_mapM_ok_iff.mp ⟨components, hcomponents⟩ c hc)
    · exact (hbehavior b).mp (Core.exists_mapM_ok_iff.mp ⟨behaviors, hbehaviors⟩ b hb)
    · exact exists_entity_iff.1 (Core.exists_mapM_ok_iff.mp ⟨entities, hentities⟩ e he)
  · intro h
    obtain ⟨components, hcomponents⟩ := Core.exists_mapM_ok_iff.mpr fun c hc =>
      (@exists_component_iff asF32 c).mpr (h.components c hc)
    obtain ⟨behaviors, hbehaviors⟩ := Core.exists_mapM_ok_iff.mpr fun b hb => (hbehavior b).mpr (h.behaviors b hb)
    obtain ⟨entities, hentities⟩ := Core.exists_mapM_ok_iff.mpr fun e he =>
      (@exists_entity_iff asF32 e).mpr (h.entities e he)
    exact ⟨_, by simp only [FullModel.fromIntermediate, hcomponents, hbehaviors, hentities]; rfl⟩

/-- component by component and entry by entry -/
theorem fromIntermediate_components (h : FullModel.fromIntermediate asF32 load im = .ok model) :
    List.Forall₂ (fun c c' => c'.name = c.name ∧
      List.Forall₂ (fun e v => VarModel.fromEntry asF32 e.1 e.2 = .ok v) c.vars c'.vars)
      im.components model.components := by
  obtain ⟨components, hcomponents, h⟩ := Core.bind_eq_ok.mp h
  obtain ⟨behaviors, _, h⟩ := Core.bind_eq_ok.mp h
  obtain ⟨entities, _, h⟩ := Core.bind_eq_ok.mp h
  obtain rfl := Except.ok.inj h
  refine (Core.mapM_ok_iff.mp hcomponents).imp fun c c' hc => ?_
  obtain ⟨vars, hvars, hc⟩ := Core.bind_eq_ok.mp hc
  obtain rfl := Except.ok.inj hc
  exact ⟨rfl, Core.mapM_ok_iff.mp hvars⟩

/-- each entry of a component has its variable, which is right -/
def Matches (im : Intermediate.Model) (model : FullModel) : Prop :=
  List.Forall₂ (fun c c' => c'.name = c.name ∧ List.Forall₂ (fun e v => Right e.1 e.2 v) c.vars c'.vars)
    im.components model.components

theorem matches_iff (h : FullModel.fromIntermediate asF32 load im = .ok model) :
    Matches im model ↔ ∀ c ∈ im.components, ∀ e ∈ c.vars, Agrees e.1 e.2 := by
  have hentry : ∀ (e : String × Json) v, VarModel.fromEntry asF32 e.1 e.2 = .ok v →
      (Right e.1 e.2 v ↔ Agrees e.1 e.2) := fun e v => right_iff
  have hcomponent : ∀ (c : Intermediate.Component) (c' : Component), (c'.name = c.name ∧
      List.Forall₂ (fun e v => VarModel.fromEntry asF32 e.1 e.2 = .ok v) c.vars c'.vars) →
      ((c'.name = c.name ∧ List.Forall₂ (fun e v => Right e.1 e.2 v) c.vars c'.vars) ↔
        ∀ e ∈ c.vars, Agrees e.1 e.2) := by
    rintro c c' ⟨hname, hvars⟩
    rw [← Core.forall₂_iff_forall hentry hvars]
    exact and_iff_right hname
  exact Core.forall₂_iff_forall hcomponent (fromIntermediate_components h)

end

/-- **Declared types match the defaults** in the model that is made, exactly if it is not accepted or the types agree in
every entry of a component. -/
theorem defaults_match_iff (asF32 : JsonNumber → UInt32) (load : Intermediate.Behavior → Except Error BehaviorModel)
    (im : Intermediate.Model) :
    (∀ model, FullModel.fromIntermediate asF32 load im = .ok model → Matches im model) ↔
      (im.Accepted load → ∀ c ∈ im.components, ∀ e ∈ c.vars, Agrees e.1 e.2) := by
  constructor
  · intro h haccepted
    obtain ⟨model, hmodel⟩ := (@fromIntermediate_ok_iff asF32 load im).mpr haccepted
    exact (matches_iff hmodel).mp (h model hmodel)
  · intro h model hmodel
    exact (matches_iff hmodel).mpr (h (fromIntermediate_ok_iff.1 ⟨model, hmodel⟩))

/-! ## A name with a string -/

/-- a component with the entry `name = "ball"` -/
def named : Intermediate.Model :=
  ⟨⟨none, none, none, []⟩, ∅, [], [], [⟨"label", [("name", .string "ball")]⟩], [], ∅, ∅, []⟩

theorem swapped : ¬ ∀ (asF32 : JsonNumber → UInt32) (load : Intermediate.Behavior → Except Error BehaviorModel)
    (im : Intermediate.Model) (model : FullModel),
    FullModel.fromIntermediate asF32 load im = .ok model → Matches im model := by
  intro h
  have haccepted : named.Accepted fun _ => .error .archiveDisabled := by
    refine ⟨?_, by simp [named], by simp [named]⟩
    simp only [named, List.forall_mem_singleton]
    exact ⟨⟨none, .int, "name"⟩, by decide, rfl⟩
  obtain ⟨model, hmodel⟩ := (@fromIntermediate_ok_iff (fun _ => 0) _ named).mpr haccepted
  have hagrees := (matches_iff hmodel).mp (h _ _ named model hmodel)
  simp only [named, List.forall_mem_singleton] at hagrees
  have htype := (hagrees ⟨none, .int, "name"⟩ (by decide)).1
  cases htype

end BigWorlds
