/-
Merging a model into another (`model/mod.rs`, `Model::merge`).

Prefabs are added where their name is new. Events, components, services, entities and the data are appended as they are.
Scenarios and behaviors are passed over.

- `merge_toModel`: on the collections that the requests read, this is the merge that the leader does;
- `keeps_everything_iff`: the exact condition;
- `merge_repeated`: what a fragment that is merged again and again adds;
- `merges_twice`: a component that is merged into a model that has it.
-/
import BigWorlds.Cluster.ModelAgreement
import BigWorlds.Core.Keyed

namespace BigWorlds

open BigWorlds.Core.Keyed (Keeps)

structure Scenario where
  name : String
deriving DecidableEq, Repr

structure EventModel where
  id : EventName
deriving DecidableEq, Repr

structure ServiceModel where
  name : String
  type_ : Option String
  typeArgs : Option String
  executable : Option String
  project : Option String
  managed : Bool
  args : List String
  output : Option String
deriving DecidableEq, Repr

inductive DataEntry where
  | simple (name value : String)
  | list (name : String) (values : List String)
  | grid (name : String) (values : List (List String))
deriving DecidableEq, Repr

inductive DataFileEntry where
  | json (path : String)
  | jsonList (path : String)
  | jsonGrid (path : String)
  | yaml (path : String)
  | yamlList (path : String)
  | yamlGrid (path : String)
  | csvList (path : String)
  | csvGrid (path : String)
deriving DecidableEq, Repr

/-- all collections of a model -/
structure FullModel extends Model where
  scenarios : List Scenario
  events : List EventModel
  data : List DataEntry
  dataFiles : List DataFileEntry
  services : List ServiceModel
deriving DecidableEq, Repr

namespace FullModel

def default : FullModel := ⟨⟨[], [], [], []⟩, [], [], [], [], []⟩

def merge (m other : FullModel) : FullModel :=
  { m with
    events := m.events ++ other.events
    prefabs := other.prefabs.foldl (fun ps p => if ps.any fun q => q.name = p.name then ps else ps ++ [p]) m.prefabs
    components := m.components ++ other.components
    data := m.data ++ other.data
    dataFiles := m.dataFiles ++ other.dataFiles
    services := m.services ++ other.services
    entities := m.entities ++ other.entities }

theorem merge_toModel (m other : FullModel) : (m.merge other).toModel = m.toModel.merge other.toModel := rfl

/-- every definition of the two is found by its name, the names of the first keep their definition, each name occurs
once, and merging again changes nothing -/
structure KeepsEverything (a b : FullModel) : Prop where
  behaviors : Keeps BehaviorModel.name a.behaviors b.behaviors (a.merge b).behaviors
  scenarios : Keeps Scenario.name a.scenarios b.scenarios (a.merge b).scenarios
  prefabs : Keeps PrefabModel.name a.prefabs b.prefabs (a.merge b).prefabs
  components : Keeps Component.name a.components b.components (a.merge b).components
  events : Keeps EventModel.id a.events b.events (a.merge b).events
  services : Keeps ServiceModel.name a.services b.services (a.merge b).services
  entities : Keeps EntityModel.name a.entities b.entities (a.merge b).entities
  again : (a.merge b).merge b = a.merge b

/-- no name occurs twice in a collection -/
structure NamesOnce (m : FullModel) : Prop where
  behaviors : (m.behaviors.map BehaviorModel.name).Nodup
  scenarios : (m.scenarios.map Scenario.name).Nodup
  prefabs : (m.prefabs.map PrefabModel.name).Nodup
  components : (m.components.map Component.name).Nodup
  events : (m.events.map EventModel.id).Nodup
  services : (m.services.map ServiceModel.name).Nodup
  entities : (m.entities.map EntityModel.name).Nodup

/-- the model has nothing in the collections that are appended -/
structure OnlyGuarded (m : FullModel) : Prop where
  events : m.events = []
  components : m.components = []
  data : m.data = []
  dataFiles : m.dataFiles = []
  services : m.services = []
  entities : m.entities = []

theorem merge_prefabs (a b : FullModel) :
    (a.merge b).prefabs = Core.Keyed.addNew PrefabModel.name a.prefabs b.prefabs := rfl

/-- what is appended is appended again -/
theorem merge_again_iff (a b : FullModel) : (a.merge b).merge b = a.merge b ↔ OnlyGuarded b := by
  have happend : ∀ {α : Type} (xs ys : List α), xs ++ ys ++ ys = xs ++ ys ↔ ys = [] := by
    intro α xs ys
    exact List.append_right_eq_self
  constructor
  · intro h
    exact ⟨(happend _ _).mp (congrArg events h), (happend _ _).mp (congrArg (·.components) h),
      (happend _ _).mp (congrArg data h), (happend _ _).mp (congrArg dataFiles h),
      (happend _ _).mp (congrArg services h), (happend _ _).mp (congrArg (·.entities) h)⟩
  · intro h
    have hprefabs := Core.Keyed.addNew_again PrefabModel.name a.prefabs b.prefabs
    unfold Core.Keyed.addNew at hprefabs
    simp only [merge, hprefabs, h.events, h.components, h.data, h.dataFiles, h.services, h.entities, List.append_nil]

/-- **Merging keeps everything** exactly if no name of the first model occurs twice, the second one has only prefabs,
scenarios and behaviors, and its scenarios and behaviors have names that the first one has. -/
theorem keeps_everything_iff (a b : FullModel) : KeepsEverything a b ↔
    NamesOnce a ∧ OnlyGuarded b ∧ (∀ x ∈ b.behaviors, ∃ y ∈ a.behaviors, y.name = x.name) ∧
      ∀ x ∈ b.scenarios, ∃ y ∈ a.scenarios, y.name = x.name := by
  have hin : ∀ {α : Type} {key : α → String} {xs ys : List α},
      (∀ y ∈ ys, key y ∈ xs.map key) ↔ ∀ y ∈ ys, ∃ x ∈ xs, key x = key y := by
    intro α key xs ys
    simp only [List.mem_map]
  constructor
  · intro h
    obtain ⟨hbehaviors, hbehaviorsIn⟩ := Core.Keyed.keeps_left_iff.mp h.behaviors
    obtain ⟨hscenarios, hscenariosIn⟩ := Core.Keyed.keeps_left_iff.mp h.scenarios
    refine ⟨⟨hbehaviors, hscenarios, ?_, h.components.left, h.events.left, h.services.left, h.entities.left⟩,
      (merge_again_iff a b).mp h.again, hin.mp hbehaviorsIn, hin.mp hscenariosIn⟩
    exact Core.Keyed.keeps_addNew_iff.mp (merge_prefabs a b ▸ h.prefabs)
  · rintro ⟨hnames, hguarded, hbehaviors, hscenarios⟩
    constructor
    · exact Core.Keyed.keeps_left_iff.mpr ⟨hnames.behaviors, hin.mpr hbehaviors⟩
    · exact Core.Keyed.keeps_left_iff.mpr ⟨hnames.scenarios, hin.mpr hscenarios⟩
    · rw [merge_prefabs]
      exact Core.Keyed.keeps_addNew_iff.mpr hnames.prefabs
    · exact Core.Keyed.keeps_append_nil hnames.components hguarded.components
    · exact Core.Keyed.keeps_append_nil hnames.events hguarded.events
    · exact Core.Keyed.keeps_append_nil hnames.services hguarded.services
    · exact Core.Keyed.keeps_append_nil hnames.entities hguarded.entities
    · exact (merge_again_iff a b).mpr hguarded

/-! ## The same fragment again -/

/-- each time the fragment is merged, its components are there once more -/
theorem merge_repeated (a b : FullModel) (n : ℕ) (name : CompName) :
    ((Core.run merge a (List.replicate n b)).components.map Component.name).count name =
      (a.components.map Component.name).count name + n * (b.components.map Component.name).count name := by
  induction n generalizing a with
  | zero => rw [Nat.zero_mul]; rfl
  | succ n ih =>
    have hone : ((a.merge b).components.map Component.name).count name =
        (a.components.map Component.name).count name + (b.components.map Component.name).count name := by
      simp only [merge, List.map_append, List.count_append]
    rw [List.replicate_succ, Core.run_cons, ih, hone, Nat.succ_mul]
    omega

def withBall : FullModel := { default with components := [⟨"ball", []⟩] }

theorem merges_twice : ¬ ∀ a b : FullModel, KeepsEverything a b := by
  intro h
  have honce := (h withBall withBall).components.once
  exact absurd honce (by decide)

end FullModel

end BigWorlds
