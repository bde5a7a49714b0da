/-
Types of stored variables (`entity/storage.rs`, `worker/manager.rs`, `query/process.rs`).

An entity that is made from a prefab gets a variable for each one that its components declare. From then on three
operations write them: `set_from_str` reads the text as the type of the value that is stored, `set_from_var` and the
pairs of `SetVars` store whatever they are given, and none of them looks at the type in the address.

- `fromStrTyped_getType`: a text is read as a value of the type that is asked for;
- `fromPrefab_lookup`: the variables that an entity starts with;
- `types_stable_iff`: the exact condition along a run;
- `text_in_a_number`: a text that is written into a number.
-/
import BigWorlds.Core.Except
import BigWorlds.Query.Filtering
import BigWorlds.Text.Value
import BigWorlds.Worker.Variables

namespace BigWorlds

/-! ## Values from text -/

section
variable {parseFloat : String → Option UInt32}

/-- an element of a list has the type that goes with the type of the list -/
theorem elementFromStr_getType {s : String} {t : VarType} {v : Var} (h : elementFromStr parseFloat s t = .ok v)
    (vs : List Var) : (Var.list (v :: vs)).getType = t := by
  cases t with
  | stringList =>
    obtain rfl := Except.ok.inj h
    rfl
  | intList | floatList | boolList | byteList =>
    obtain ⟨a, _, h⟩ := Core.bind_eq_ok.mp h
    obtain rfl := Except.ok.inj h
    rfl
  | _ => cases h

theorem split_ne_nil (sep : Char) (s : String) : Core.split sep s ≠ [] := by
  intro h
  exact List.splitOn_ne_nil sep s.toList (List.map_eq_nil_iff.mp h)

/-- a text has at least one piece, so that a list that is read is not empty -/
theorem elementsFromStr_getType {s : String} {t : VarType} {vs : List Var}
    (h : elementsFromStr parseFloat t (Core.split ',' s) = .ok vs) : (Var.list vs).getType = t := by
  cases hpieces : Core.split ',' s with
  | nil => exact absurd hpieces (split_ne_nil ',' s)
  | cons piece pieces =>
    rw [hpieces] at h
    obtain ⟨v, hv, h⟩ := Core.bind_eq_ok.mp h
    obtain ⟨rest, _, h⟩ := Core.bind_eq_ok.mp h
    obtain rfl := Except.ok.inj h
    exact elementFromStr_getType hv rest

theorem fromStrTyped_getType {s : String} {t : VarType} {v : Var} (h : Var.fromStrTyped parseFloat s t = .ok v) :
    v.getType = t := by
  cases t with
  | string =>
    obtain rfl := Except.ok.inj h
    rfl
  | int | float | bool | byte =>
    obtain ⟨a, _, h⟩ := Core.bind_eq_ok.mp h
    obtain rfl := Except.ok.inj h
    rfl
  | vec2 =>
    simp only [Var.fromStrTyped] at h
    split at h
    · obtain ⟨x, _, h⟩ := Core.bind_eq_ok.mp h
      obtain ⟨y, _, h⟩ := Core.bind_eq_ok.mp h
      obtain rfl := Except.ok.inj h
      rfl
    · cases h
  | vec3 =>
    simp only [Var.fromStrTyped] at h
    split at h
    · obtain ⟨x, _, h⟩ := Core.bind_eq_ok.mp h
      obtain ⟨y, _, h⟩ := Core.bind_eq_ok.mp h
      obtain ⟨z, _, h⟩ := Core.bind_eq_ok.mp h
      obtain rfl := Except.ok.inj h
      rfl
    · cases h
  | stringList | intList | floatList | boolList | byteList | vec2List | vec3List | list =>
    obtain ⟨vs, hvs, h⟩ := Core.bind_eq_ok.mp h
    obtain rfl := Except.ok.inj h
    exact elementsFromStr_getType hvs
  | map | grid | stringGrid | intGrid | floatGrid | boolGrid | byteGrid | vec2Grid | vec3Grid => cases h

end

/-! ## The storage -/

/-- how `set_from_str` fails: there is no variable, or the text is not read -/
inductive SetFailure where
  | missing (e : Error)
  | value (failure : ValueFailure)
deriving DecidableEq, Repr

/-- reads the text as the type of the value that is there -/
def Storage.setFromStr (parseFloat : String → Option UInt32) (s : Storage) (idx : StorageIndex) (val : String) :
    Except SetFailure Storage := do
  let target ← (s.getVar idx).mapError .missing
  let source ← (Var.fromStrTyped parseFloat val target.getType).mapError .value
  return s.insert idx source

theorem Storage.setFromStr_ok {parseFloat : String → Option UInt32} {s s' : Storage} {idx : StorageIndex}
    {val : String} (h : s.setFromStr parseFloat idx val = .ok s') : ∃ target source, s.map.lookup idx = some target ∧
      source.getType = target.getType ∧ s' = s.insert idx source := by
  obtain ⟨target, htarget, h⟩ := Core.bind_eq_ok.mp h
  obtain ⟨source, hsource, h⟩ := Core.bind_eq_ok.mp h
  refine ⟨target, source, ?_, ?_, (Except.ok.inj h).symm⟩
  · unfold getVar at htarget
    cases hv : s.map.lookup idx with
    | none =>
      rw [hv] at htarget
      cases htarget
    | some v =>
      rw [hv] at htarget
      exact congrArg some (Except.ok.inj htarget)
  · cases hread : Var.fromStrTyped parseFloat val target.getType with
    | error failure =>
      rw [hread] at hsource
      cases hsource
    | ok v =>
      rw [hread] at hsource
      obtain rfl := Except.ok.inj hsource
      exact fromStrTyped_getType hread

/-! ## The variables of a new entity -/

/-- the variable that counts of those with this name -/
def Component.lastNamed (c : Component) (name : VarName) : Option VarModel := c.vars.reverse.find? (·.name = name)

def VarModel.initial (v : VarModel) : Var := v.default.getD v.type_.defaultValue

def Model.initialOf (model : Model) (idx : StorageIndex) : Option Var :=
  match model.getComponent idx.1 with
  | .ok c => (c.lastNamed idx.2).map VarModel.initial
  | .error _ => none

theorem attach_lookup {e e' : Entity} {comp : CompName} {model : Model} (h : e.attach comp model = .ok e')
    (idx : StorageIndex) : e'.storage.map.lookup idx =
      ((if idx.1 = comp then model.initialOf idx else none) <|> e.storage.map.lookup idx) := by
  obtain ⟨c, hc, h⟩ := Core.bind_eq_ok.mp h
  obtain rfl := Except.ok.inj h
  have hlast : ∀ (vars : List VarModel) (storage : Storage), (vars.foldl
      (fun st v => st.insert (comp, v.name) v.initial) storage).map.lookup idx =
        ((if idx.1 = comp then (vars.reverse.find? (·.name = idx.2)).map VarModel.initial else none) <|>
          storage.map.lookup idx) := by
    intro vars
    induction vars with
    | nil => intro storage; simp
    | cons v vs ih =>
      intro storage
      rw [List.foldl_cons, ih, List.reverse_cons, List.find?_append]
      by_cases hidx : idx = (comp, v.name)
      · subst hidx
        cases vs.reverse.find? (·.name = v.name) <;> simp
      · rw [Storage.lookup_insert_ne _ _ hidx]
        by_cases hcomp : idx.1 = comp
        · have hname : v.name ≠ idx.2 := fun heq => hidx (Prod.ext hcomp heq.symm)
          simp [hname]
        · simp [hcomp]
  apply (hlast c.vars e.storage).trans
  by_cases hcomp : idx.1 = comp
  · simp only [Model.initialOf, hcomp, hc, Component.lastNamed]
  · simp only [if_neg hcomp]

/-- an entity starts with the variables of its components -/
theorem fromPrefab_lookup {prefab : PrefabModel} {model : Model} {e : Entity}
    (h : Entity.fromPrefab prefab model = .ok e) (idx : StorageIndex) :
    e.storage.map.lookup idx = if idx.1 ∈ prefab.components then model.initialOf idx else none := by
  have hall : ∀ (comps : List CompName) (e₀ e : Entity),
      comps.foldlM (fun e comp => e.attach comp model) e₀ = .ok e → e.storage.map.lookup idx =
        ((if idx.1 ∈ comps then model.initialOf idx else none) <|> e₀.storage.map.lookup idx) := by
    intro comps
    induction comps with
    | nil =>
      intro e₀ e h
      obtain rfl := Except.ok.inj h
      simp
    | cons comp comps ih =>
      intro e₀ e h
      obtain ⟨e₁, h₁, h⟩ := Core.bind_eq_ok.mp h
      rw [ih e₁ e h, attach_lookup h₁]
      simp only [List.mem_cons]
      by_cases hcomp : idx.1 = comp
      · rw [if_pos hcomp, if_pos (Or.inl hcomp)]
        split_ifs <;> cases model.initialOf idx <;> rfl
      · simp only [hcomp, false_or, if_false]
        split_ifs <;> cases model.initialOf idx <;> rfl
  rw [hall prefab.components .empty e h]
  split_ifs <;> cases model.initialOf idx <;> rfl

/-! ## Assignments -/

/-- the component model has a variable of this name with this type -/
def Model.Declares (model : Model) (idx : StorageIndex) (t : VarType) : Prop :=
  ∃ c, model.getComponent idx.1 = .ok c ∧ ∃ v ∈ c.vars, v.name = idx.2 ∧ v.type_ = t

/-- a request, or a call on the storage of the entity -/
inductive Assignment where
  | setVars (pairs : List (Address × Var))
  | setFromVar (target : LocalAddress) (var : Var)
  | setFromStr (idx : StorageIndex) (val : String)

namespace WorkerState

/-- an operation on the storage of an entity in memory -/
def onStorage {ε : Type} (y : EntityName) (f : Storage → Except ε Storage) (st : WorkerState) :
    WorkerState × Except ε Unit :=
  match st.part with
  | some part =>
    match part.entities.lookup y with
    | some e =>
      match f e.storage with
      | .ok storage =>
        ({ st with part := some { part with entities := part.entities.insert y { e with storage } } }, .ok ())
      | .error err => (st, .error err)
    | none => (st, .ok ())
  | none => (st, .ok ())

theorem setVar_eq_onStorage (a : Address) (v : Var) (st : WorkerState) :
    setVar a v st = st.onStorage a.entity (·.setFromVar a.toLocal v) := by
  unfold setVar onStorage
  cases st.part with
  | none => rfl
  | some part =>
    simp only
    cases part.entities.lookup a.entity with
    | none => rfl
    | some e =>
      simp only
      cases e.storage.setFromVar a.toLocal v <;> rfl

theorem onStorage_cases {ε : Type} (y : EntityName) (f : Storage → Except ε Storage) (st : WorkerState) :
    (st.inMemory y = none ∧ st.onStorage y f = (st, .ok ())) ∨
      (∃ e err, st.inMemory y = some e ∧ f e.storage = .error err ∧ st.onStorage y f = (st, .error err)) ∨
      ∃ e storage, st.inMemory y = some e ∧ f e.storage = .ok storage ∧ (st.onStorage y f).2 = .ok () ∧
        ∀ x, (st.onStorage y f).1.inMemory x = if x = y then some { e with storage } else st.inMemory x := by
  unfold onStorage
  cases hp : st.part with
  | none => exact Or.inl ⟨by simp [inMemory, hp], rfl⟩
  | some part =>
    simp only
    cases hy : part.entities.lookup y with
    | none => exact Or.inl ⟨by simp [inMemory, hp, hy], rfl⟩
    | some e =>
      have hmem : st.inMemory y = some e := by simp [inMemory, hp, hy]
      simp only
      cases hf : f e.storage with
      | error err => exact Or.inr (Or.inl ⟨e, err, hmem, hf, rfl⟩)
      | ok storage =>
        refine Or.inr (Or.inr ⟨e, storage, hmem, hf, rfl, fun x => ?_⟩)
        by_cases hx : x = y
        · subst hx
          simp [inMemory]
        · simp [inMemory, hp, hx, Finmap.lookup_insert_of_ne _ hx]

/-- what one operation leaves: nothing has changed, or the storage of the entity is the new one -/
theorem onStorage_live {ε : Type} (y : EntityName) (f : Storage → Except ε Storage) (st : WorkerState) :
    (st.onStorage y f).1 = st ∨ ∃ e storage, st.inMemory y = some e ∧ f e.storage = .ok storage ∧
      ∀ idx, (st.onStorage y f).1.liveVar y idx = storage.map.lookup idx := by
  rcases st.onStorage_cases y f with ⟨_, hset⟩ | ⟨e, err, _, _, hset⟩ | ⟨e, storage, hmem, hf, _, hafter⟩
  · exact Or.inl (by rw [hset])
  · exact Or.inl (by rw [hset])
  · refine Or.inr ⟨e, storage, hmem, hf, fun idx => ?_⟩
    rw [liveVar, hafter, if_pos rfl, Option.bind_some]

variable (parseFloat : String → Option UInt32) (model : Model) (y : EntityName)

def assign (st : WorkerState) : Assignment → WorkerState
  | .setVars pairs => (setVars pairs st).1
  | .setFromVar target var => (st.onStorage y (·.setFromVar target var)).1
  | .setFromStr idx val => (st.onStorage y (·.setFromStr parseFloat idx val)).1

/-- the values that a list of pairs assigns to variables of the entity, each with the state that it finds; the list ends
at the first pair that fails -/
def attemptsOf : List (Address × Var) → WorkerState → List (WorkerState × LocalAddress × Var)
  | [], _ => []
  | (a, v) :: pairs, st =>
    (if a.entity = y then [(st, a.toLocal, v)] else []) ++
      match setVar a v st with
      | (st', .ok ()) => attemptsOf pairs st'
      | (_, .error _) => []

def attempts (st : WorkerState) : Assignment → List (WorkerState × LocalAddress × Var)
  | .setVars pairs => attemptsOf y pairs st
  | .setFromVar target var => [(st, target, var)]
  | .setFromStr _ _ => []

/-- the entity has the variable, and the value or the address has another type than the declared one -/
def Mistyped (st : WorkerState) (target : LocalAddress) (var : Var) : Prop :=
  (st.liveVar y target.asStorageIndex).isSome = true ∧
    ∃ t, model.Declares target.asStorageIndex t ∧ (var.getType ≠ t ∨ target.varType ≠ t)

/-- an assignment of another type, or through an address with another type, fails and changes nothing -/
def Rejects (st : WorkerState) (op : Assignment) : Prop :=
  ∀ p ∈ st.attempts y op, Mistyped model y p.1 p.2.1 p.2.2 →
    (p.1.onStorage y (·.setFromVar p.2.1 p.2.2)).1 = p.1 ∧ (p.1.onStorage y (·.setFromVar p.2.1 p.2.2)).2 ≠ .ok ()

/-- the value and the address of each assignment to a variable that the entity has are of the declared type -/
def Proper (st : WorkerState) (op : Assignment) : Prop :=
  ∀ p ∈ st.attempts y op, ¬ Mistyped model y p.1 p.2.1 p.2.2

def TypesHold (st : WorkerState) : Prop :=
  ∀ idx t v, model.Declares idx t → st.liveVar y idx = some v → v.getType = t

variable {parseFloat model y} {st : WorkerState}

/-- nothing is checked: a variable that the entity has takes every value -/
theorem mistyped_accepted {target : LocalAddress} {var : Var} (h : Mistyped model y st target var) :
    (st.onStorage y (·.setFromVar target var)).2 = .ok () := by
  obtain ⟨hsome, _⟩ := h
  rcases st.onStorage_cases y (·.setFromVar target var) with ⟨_, hset⟩ | ⟨e, err, hmem, hf, _⟩ | ⟨_, _, _, _, hok, _⟩
  · rw [hset]
  · rw [liveVar, hmem, Option.bind_some] at hsome
    obtain ⟨old, hold⟩ := Option.isSome_iff_exists.mp hsome
    simp only [Storage.setFromVar, Storage.getVar, hold] at hf
    cases hf
  · exact hok

theorem rejects_iff {op : Assignment} : Rejects model y st op ↔ Proper model y st op := by
  constructor
  · intro h p hp hmis
    exact (h p hp hmis).2 (mistyped_accepted hmis)
  · intro h p hp hmis
    exact absurd hmis (h p hp)

/-- a value of every type that is declared for the variable is written -/
theorem TypesHold.insert (h : TypesHold model y st) {st' : WorkerState} {e : Entity} {idx : StorageIndex} {var : Var}
    (hmem : st.inMemory y = some e) (hlive : ∀ idx', st'.liveVar y idx' = (e.storage.insert idx var).map.lookup idx')
    (htype : ∀ t, model.Declares idx t → var.getType = t) : TypesHold model y st' := by
  intro idx' t v hdeclares hv
  rw [hlive] at hv
  by_cases hidx : idx' = idx
  · subst hidx
    rw [Storage.lookup_insert_self] at hv
    obtain rfl := Option.some.inj hv
    exact htype t hdeclares
  · rw [Storage.lookup_insert_ne _ _ hidx] at hv
    exact h idx' t v hdeclares (by rw [liveVar, hmem]; exact hv)

theorem setFromVar_typed (h : TypesHold model y st) {target : LocalAddress} {var : Var}
    (hnot : ¬ Mistyped model y st target var) : TypesHold model y (st.onStorage y (·.setFromVar target var)).1 := by
  rcases st.onStorage_live y (·.setFromVar target var) with hsame | ⟨e, storage, hmem, hf, hlive⟩
  · rw [hsame]
    exact h
  · obtain ⟨rfl, hsome⟩ := Storage.setFromVar_ok hf
    apply h.insert hmem hlive
    intro t hdeclares
    by_contra hne
    exact hnot ⟨by rw [liveVar, hmem]; exact hsome, t, hdeclares, Or.inl hne⟩

theorem setFromStr_typed (h : TypesHold model y st) (idx : StorageIndex) (val : String) :
    TypesHold model y (st.onStorage y (·.setFromStr parseFloat idx val)).1 := by
  rcases st.onStorage_live y (·.setFromStr parseFloat idx val) with hsame | ⟨e, storage, hmem, hf, hlive⟩
  · rw [hsame]
    exact h
  · obtain ⟨target, source, htarget, htype, rfl⟩ := Storage.setFromStr_ok hf
    apply h.insert hmem hlive
    intro t hdeclares
    exact htype.trans (h idx t target hdeclares (by rw [liveVar, hmem]; exact htarget))

/-- pair by pair -/
theorem setVars_typed {pairs : List (Address × Var)} (h : TypesHold model y st)
    (hnot : ∀ p ∈ attemptsOf y pairs st, ¬ Mistyped model y p.1 p.2.1 p.2.2) :
    TypesHold model y (setVars pairs st).1 := by
  induction pairs generalizing st with
  | nil => exact h
  | cons p pairs ih =>
    obtain ⟨a, v⟩ := p
    have hone : TypesHold model y (setVar a v st).1 := by
      by_cases hy : a.entity = y
      · subst hy
        rw [setVar_eq_onStorage]
        exact setFromVar_typed h (hnot (st, a.toLocal, v) (by simp [attemptsOf]))
      · intro idx t u hdeclares hu
        apply h idx t u hdeclares
        rcases setVar_written a v st with ⟨_, hsame, _⟩ | ⟨_, _, _, hvars⟩
        · rwa [hsame] at hu
        · simpa [hvars, Address.Names, hy] using hu
    unfold setVars
    cases hset : setVar a v st with
    | mk st' ans =>
      rw [hset] at hone
      cases ans with
      | error err => exact hone
      | ok u =>
        apply ih hone
        intro p hp
        apply hnot p
        rw [attemptsOf, hset]
        exact List.mem_append_right _ hp

theorem assign_typed (h : TypesHold model y st) {op : Assignment} (hop : Proper model y st op) :
    TypesHold model y (st.assign parseFloat y op) := by
  cases op with
  | setVars pairs => exact setVars_typed h hop
  | setFromVar target var => exact setFromVar_typed h (hop (st, target, var) List.mem_cons_self)
  | setFromStr idx val => exact setFromStr_typed h idx val

/-! ## From the start -/

end WorkerState

/-- an entity made from a prefab -/
structure Built (model : Model) where
  prefab : PrefabModel
  entity : Entity
  made : Entity.fromPrefab prefab model = .ok entity

/-- of the variables with one name the last gives the initial value, which has the type that each of them declares -/
def Component.DefaultsTyped (c : Component) : Prop :=
  ∀ v ∈ c.vars, ∀ w, c.lastNamed v.name = some w → w.initial.getType = v.type_

namespace WorkerState

/-- a worker that has the entity in memory -/
def having (st : WorkerState) (part : Partition) (y : EntityName) (e : Entity) : WorkerState :=
  { st with part := some { part with entities := part.entities.insert y e } }

theorem having_inMemory (st : WorkerState) (part : Partition) (y : EntityName) (e : Entity) :
    (st.having part y e).inMemory y = some e := by
  simp [having, inMemory]

variable {parseFloat : String → Option UInt32} {model : Model} {y : EntityName}

theorem having_typed (b : Built model) (st : WorkerState) (part : Partition) :
    TypesHold model y (st.having part y b.entity) ↔
      ∀ comp ∈ b.prefab.components, ∀ c, model.getComponent comp = .ok c → c.DefaultsTyped := by
  have hlive : ∀ idx, (st.having part y b.entity).liveVar y idx =
      if idx.1 ∈ b.prefab.components then model.initialOf idx else none := by
    intro idx
    rw [liveVar, having_inMemory, Option.bind_some, fromPrefab_lookup b.made]
  constructor
  · intro h comp hcomp c hc v hv w hw
    refine h (comp, v.name) v.type_ w.initial ⟨c, hc, v, hv, rfl, rfl⟩ ?_
    rw [hlive, if_pos hcomp]
    simp only [Model.initialOf, hc, hw, Option.map_some]
  · intro h idx t value hdeclares hvalue
    obtain ⟨c, hc, v, hv, hname, rfl⟩ := hdeclares
    rw [hlive] at hvalue
    split_ifs at hvalue with hcomp
    simp only [Model.initialOf, hc, Option.map_eq_some_iff] at hvalue
    obtain ⟨w, hw, rfl⟩ := hvalue
    exact h idx.1 hcomp c hc v hv w (by rw [hname]; exact hw)

/-- each variable has the declared type, and the filter by range does not fail on one that is addressed with it -/
structure Stable (format : Var → String) (model : Model) (y : EntityName) (st : WorkerState) : Prop where
  types : TypesHold model y st
  filters : ∀ e, st.inMemory y = some e → ∀ addr low high, model.Declares addr.asStorageIndex addr.varType →
    addr.varType ∈ [VarType.string, .int, .float] → ∃ inside, e.between format addr low high = .ok inside

theorem TypesHold.stable (format : Var → String) {st : WorkerState} (h : TypesHold model y st) :
    Stable format model y st := by
  refine ⟨h, fun e he addr low high hdeclares htype => ⟨_, between_eq format low high htype (fun v hv => ?_) y⟩⟩
  apply h addr.asStorageIndex addr.varType v hdeclares
  rw [liveVar, he]
  exact hv

/-- **Types are stable** along a run that starts with an entity made from a prefab, and every assignment of another type
is rejected, if and only if the initial values have the declared types and no value is assigned, to a variable that the
entity has, whose type or whose address has another type than the declared one. -/
theorem types_stable_iff (format : Var → String) (parseFloat : String → Option UInt32) (model : Model) (y : EntityName)
    (b : Built model) (st : WorkerState) (part : Partition) (ops : List Assignment) :
    ((∀ n, Stable format model y (Core.run (assign parseFloat y) (st.having part y b.entity) (ops.take n))) ∧
        Core.Along (assign parseFloat y) (Rejects model y) (st.having part y b.entity) ops) ↔
      (∀ comp ∈ b.prefab.components, ∀ c, model.getComponent comp = .ok c → c.DefaultsTyped) ∧
        Core.Along (assign parseFloat y) (Proper model y) (st.having part y b.entity) ops := by
  constructor
  · rintro ⟨hstable, hrejects⟩
    exact ⟨(having_typed b st part).mp (hstable 0).types, hrejects.mono fun s op => rejects_iff.1⟩
  · rintro ⟨hdefaults, hproper⟩
    refine ⟨fun n => ?_, hproper.mono fun s op => rejects_iff.2⟩
    have hkeeps : ∀ s op, TypesHold model y s → Proper model y s op → TypesHold model y (assign parseFloat y s op) :=
      fun s op hs hop => assign_typed hs hop
    have hstart : TypesHold model y (st.having part y b.entity) := (having_typed b st part).mpr hdefaults
    rw [← List.take_append_drop n ops] at hproper
    apply TypesHold.stable
    exact Core.run_inv hkeeps hstart hproper.take

/-! ## A text in a number -/

/-- a ball has one coordinate -/
def ballModel : Model := ⟨[⟨"ball", ["position"]⟩], [⟨"position", [⟨"x", .int, none⟩]⟩], [], []⟩

def builtBall : Built ballModel where
  prefab := ⟨"ball", ["position"]⟩
  entity := ⟨Storage.default.insert ("position", "x") (.int 0), ["position"], ⟨none, none⟩⟩
  made := rfl

theorem text_in_a_number : ¬ ∀ (format : Var → String) (parseFloat : String → Option UInt32) (model : Model)
    (y : EntityName) (b : Built model) (st : WorkerState) (part : Partition) (ops : List Assignment),
    Stable format model y (Core.run (assign parseFloat y) (st.having part y b.entity) ops) := by
  intro h
  have htypes := (h (fun _ => "") (fun _ => none) ballModel "ball" builtBall archivedBall ⟨∅, none, ∅, [], .default⟩
    [.setVars [(⟨"ball", "position", .int, "x"⟩, .string "fast")]]).types
  have hint := htypes ("position", "x") .int (.string "fast")
    ⟨⟨"position", [⟨"x", .int, none⟩]⟩, rfl, ⟨"x", .int, none⟩, List.mem_cons_self, rfl, rfl⟩ rfl
  cases hint

end WorkerState

end BigWorlds
