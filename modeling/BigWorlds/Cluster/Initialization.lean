/-
What a successful initialization leaves in the cluster (`leader/mod.rs`, `initialize`; `worker/manager.rs`,
`Initialize` and `SpawnEntity`; `Partition::spawn_entity`).

Every worker of the leader gets a fresh partition, which opens the archive in its data directory, and the entities of
the model are spawned one after another, each on a worker chosen at random. `SpawnEntity` carries a name and a prefab:
the entity's own initial data is not sent. A name that the model has twice is spawned twice.

- `Realized`: what the initialization is for;
- `Realizable`: the condition on the model, the workers before, and the placement;
- `initialize_final`: what each worker holds after a successful initialization;
- `initialization_realizes_iff`: the model is realized exactly under the condition;
- `initial_data_dropped`: an entity with initial data of its own.
-/
import BigWorlds.Cluster.ModelAgreement

namespace BigWorlds

/-- the entity `SpawnEntity` makes of the model's entry -/
def EntityModel.spawned (e : EntityModel) (model : Model) : Except Error Entity :=
  match e.prefab with
  | some p => Entity.fromPrefabName p model
  | none => .ok .empty

/-- the components of the entry's prefab, and their defaults overlaid with its own data -/
def EntityModel.Matches (e : EntityModel) (model : Model) (entity : Entity) : Prop :=
  ∃ base, e.spawned model = .ok base ∧ entity.components = base.components ∧
    entity.storage = e.data.foldl (fun st av => st.insert av.1.asStorageIndex av.2) base.storage

/-- without initial data the partition adds the prefab's entity as it is -/
theorem Partition.spawnEntity_nil (load : Loader) (part : Partition) (e : EntityModel) (model : Model) :
    part.spawnEntity load e.name e.prefab [] model =
      match e.spawned model with
      | .error err => (part, .error err)
      | .ok entity => part.addEntity load e.name entity model := by
  unfold Partition.spawnEntity EntityModel.spawned
  cases e.prefab with
  | none => rfl
  | some p => cases hp : Entity.fromPrefabName p model <;> simp [hp, bind, Except.bind, pure, Except.pure]

/-- what a spawn that succeeds does: the entity is made and stored -/
theorem WorkerState.spawnEntity_ok {load : Loader} {e : EntityModel} {st : WorkerState}
    (h : (spawnEntity load e.name e.prefab st).2 = .ok ()) :
    ∃ model entity, st.model = some model ∧ e.spawned model = .ok entity ∧
      Stored e.name entity st (spawnEntity load e.name e.prefab st).1 := by
  unfold spawnEntity at h ⊢
  cases hm : st.model with
  | none => simp [hm] at h
  | some model =>
    cases hp : st.part with
    | none => simp [hm, hp] at h
    | some part =>
      simp only [hm, hp, Partition.spawnEntity_nil] at h ⊢
      cases hs : e.spawned model with
      | error err => simp [hs] at h
      | ok entity =>
        simp only [hs] at h ⊢
        have hadd := addEntity_spec load e.name entity st
        simp only [addEntity, hm, hp] at hadd
        refine ⟨model, entity, rfl, hs, ?_⟩
        rcases hadd with ⟨-, err, herr⟩ | ⟨-, hst, -⟩
        · rw [h] at herr
          cases herr
        · exact hst
namespace Initialization

open BigWorlds.Core (Rng)
open Leader (Env InitEnv onEach)
open Names (EachOnce)
open WorkerState (Stored Untouched)

/-! ## What is wanted -/

/-- worker `v` has this copy of entity `x`, in memory or in its archive -/
def HasCopy (c : Cluster) (v : WorkerId) (x : EntityName) (entity : Entity) : Prop :=
  c.inMemory v x = some entity ∨ c.archived v x = some entity

/-- **The model is realized.** Each of its entities is held by exactly one worker, every copy of it has what the model
says, and nothing else is held. -/
structure Realized (model : Model) (c : Cluster) : Prop where
  held : ∀ e ∈ model.entities, ∃ v, ∀ w, c.Holds w e.name ↔ w = v
  right : ∀ e ∈ model.entities, ∀ v entity, HasCopy c v e.name entity → e.Matches model entity
  nothingElse : ∀ v x, c.Holds v x → ∃ e ∈ model.entities, e.name = x

/-! ## The condition -/

/-- the copy of entity `x` that a fresh partition of the worker finds in its data directory -/
def leftover (st : WorkerState) (x : EntityName) : Option Entity :=
  if st.config.partition.enableArchive then st.onDisk.lookup x else none

/-- the worker on which the `i`-th entity is placed -/
def placedAt (c : Cluster) (env : InitEnv) (i : ℕ) : Option WorkerId := (env.place i).1.choose c.leader.workers.keys

/-- the last entry of the model with name `x` among those placed on worker `v` -/
def placedLast (at_ : ℕ → Option WorkerId) (v : WorkerId) (x : EntityName) : ℕ → List EntityModel → Option EntityModel
  | _, [] => none
  | i, e :: es => (placedLast at_ v x (i + 1) es).or (if e.name = x ∧ at_ i = some v then some e else none)

/-- **The condition.** Entries of one name are placed on one worker, and what is spawned there is what each of them
says: their own initial data adds nothing. A copy left in a data directory is of an entity placed on that worker, and is
written over or is what the model says. Workers not registered with the leader hold nothing. -/
structure Realizable (model : Model) (env : InitEnv) (c : Cluster) : Prop where
  together : ∀ i j d e, model.entities[i]? = some d → model.entities[j]? = some e → d.name = e.name →
    placedAt c env i = placedAt c env j
  data : ∀ e ∈ model.entities, ∀ v d entity, placedLast (placedAt c env) v e.name 0 model.entities = some d →
    d.spawned model = .ok entity → e.Matches model entity
  leftover : ∀ v ∈ c.leader.workers.keys, ∀ st x old, c.stateOf v = some st → leftover st x = some old →
    ∃ i e, model.entities[i]? = some e ∧ e.name = x ∧ placedAt c env i = some v ∧
      (st.config.partition.entityCreateToArchive = true ∨
        ∀ d ∈ model.entities, d.name = x → d.Matches model old)
  elsewhere : ∀ v, v ∉ c.leader.workers.keys → ∀ x, ¬ c.Holds v x

/-! ## Fresh partitions -/

/-- the worker has the model and a fresh partition -/
structure Begun (model : Model) (st st' : WorkerState) : Prop where
  model : st'.model = some model
  inMemory : ∀ x, st'.inMemory x = none
  archived : ∀ x, st'.archived x = leftover st x
  creates : st'.createsToArchive = st.config.partition.entityCreateToArchive

theorem initPartition_ok {load : Loader} {opens : Except Error Unit} {st : WorkerState}
    (h : (WorkerState.initPartition load opens st).2 = .ok ()) {model : Model} (hm : st.model = some model) :
    Begun model st (WorkerState.initPartition load opens st).1 := by
  unfold WorkerState.initPartition at h ⊢
  simp only [hm] at h ⊢
  split at h
  · have hs : Partition.SameEntities (Partition.new st.config.partition st.onDisk)
        (Partition.fromModel load model st.config.partition st.onDisk) := Partition.spawnAll_same load _ .worker _
    refine ⟨rfl, fun x => ?_, fun x => ?_, ?_⟩
    · simp only [WorkerState.inMemory, Option.bind_some, hs.entities]
      rfl
    · simp only [WorkerState.archived, Option.bind_some]
      rw [hs.archived x]
      simp only [leftover, Partition.new, Partition.archived]
      split_ifs <;> rfl
    · simp only [WorkerState.createsToArchive, Option.map_some, Option.getD_some, hs.config]
      rfl
  · cases h

theorem leftover_congr {st st' : WorkerState} (h : WorkerState.SameStore st st') (x : EntityName) :
    leftover st' x = leftover st x := by
  simp only [leftover, h.config, h.onDisk]

/-- the models are set and the partitions built at every registered worker -/
theorem begun_everywhere (model : Model) {models inits : List (WorkerId × Env)} {c : Cluster}
    (hmodels : EachOnce c (models.map Prod.fst)) (hinits : EachOnce c (inits.map Prod.fst))
    (hok₁ : (onEach (fun e => WorkerState.replaceModel e.restart model) models c).2 = .ok ())
    (hok₂ : (onEach (fun e => WorkerState.initPartition e.load e.opens) inits
      (onEach (fun e => WorkerState.replaceModel e.restart model) models c).1).2 = .ok ())
    {v : WorkerId} (hv : v ∈ c.leader.workers.keys) :
    ∃ st st', c.stateOf v = some st ∧
      (onEach (fun e => WorkerState.initPartition e.load e.opens) inits
        (onEach (fun e => WorkerState.replaceModel e.restart model) models c).1).1.stateOf v = some st' ∧
      Begun model st st' := by
  obtain ⟨p, hp, rfl⟩ := hmodels.mem hv
  obtain ⟨q, hq, hqp⟩ := hinits.mem hv
  obtain ⟨st, hst, hans, hnew⟩ := Leader.onEach_ok hmodels.nodup hok₁ hp
  obtain ⟨st₁, hst₁, hans₁, hnew₁⟩ := Leader.onEach_ok hinits.nodup hok₂ hq
  rw [hqp] at hst₁ hnew₁
  obtain rfl := Option.some.inj (hst₁.symm.trans hnew)
  refine ⟨st, _, hst, hnew₁, ?_⟩
  have hm : (WorkerState.replaceModel p.2.restart model st).1.model = some model := by
    rcases ModelAgreement.replaceModel_model p.2 model st with ⟨-, hm⟩ | ⟨hno, -⟩
    · exact hm
    · exact absurd ((ModelAgreement.replaceModel_ok_iff p.2 model st).mp hans) hno
  have hb := initPartition_ok hans₁ hm
  have hsame := WorkerState.replaceModel_same p.2.restart model st
  exact ⟨hb.model, hb.inMemory, fun x => (hb.archived x).trans (leftover_congr hsame x),
    hb.creates.trans (by rw [hsame.config])⟩

/-! ## Spawning the entities -/

/-- what the spawns leave of entity `x` at a worker, when `d` was spawned there last -/
def Leaves (model : Model) (x : EntityName) (st st' : WorkerState) : Option EntityModel → Prop
  | none => Untouched x st st'
  | some d => ∃ entity, d.spawned model = .ok entity ∧ Stored x entity st st'

/-- a later spawn of `x` writes over an earlier one, since the worker stores both in the same place -/
theorem Leaves.trans {model : Model} {x : EntityName} {s t u : WorkerState} {o₁ o₂ : Option EntityModel}
    (h₁ : Leaves model x s t o₁) (hc : t.createsToArchive = s.createsToArchive) (h₂ : Leaves model x t u o₂) :
    Leaves model x s u (o₂.or o₁) := by
  cases o₂ with
  | none =>
    cases o₁ with
    | none => exact ⟨h₂.1.trans h₁.1, h₂.2.trans h₁.2⟩
    | some d =>
      obtain ⟨entity, hs, hst⟩ := h₁
      refine ⟨entity, hs, ?_⟩
      unfold Stored at hst ⊢
      rw [h₂.1, h₂.2]
      exact hst
  | some d =>
    obtain ⟨entity, hs, hst⟩ := h₂
    refine ⟨entity, hs, ?_⟩
    unfold Stored at hst ⊢
    rw [hc] at hst
    -- the other place is as before, whatever the earlier spawns did
    have hother : (if s.createsToArchive then t.inMemory x = s.inMemory x else t.archived x = s.archived x) := by
      cases o₁ with
      | none =>
        split_ifs
        · exact h₁.1
        · exact h₁.2
      | some d' =>
        obtain ⟨entity', -, hst'⟩ := h₁
        unfold Stored at hst'
        split_ifs at hst' ⊢
        · exact hst'.2
        · exact hst'.2
    split_ifs at hst hother ⊢
    · exact ⟨hst.1, hst.2.trans hother⟩
    · exact ⟨hst.1, hst.2.trans hother⟩

/-- one spawn that succeeds, as every worker sees it -/
theorem request_spawned (env : Env) (r : WorkerId) (e : EntityModel) {model : Model} {c : Cluster}
    (hm : ∀ v ∈ c.leader.workers.keys, ∀ st, c.stateOf v = some st → st.model = some model)
    (hok : (Leader.request env r (WorkerState.spawnEntity env.load e.name e.prefab) c).2 = .ok ()) :
    r ∈ c.leader.workers.keys ∧ ∀ v st, c.stateOf v = some st →
      ∃ st', (Leader.request env r (WorkerState.spawnEntity env.load e.name e.prefab) c).1.stateOf v = some st' ∧
        st'.model = st.model ∧ st'.createsToArchive = st.createsToArchive ∧
        ∀ x, Leaves model x st st' (if e.name = x ∧ r = v then some e else none) := by
  rcases (Leader.request_spec env r (WorkerState.spawnEntity env.load e.name e.prefab) c).ran with
    ⟨-, err, herr⟩ | ⟨⟨exec, hexec, -⟩, hran, hans⟩
  · rw [hok] at herr
    cases herr
  · have hk := FnvHashMap.mem_keys hexec
    refine ⟨hk, fun v st hst => ?_⟩
    by_cases hvr : v = r
    · subst hvr
      obtain ⟨st₀, hst₀, hnew⟩ := hran.here
      obtain rfl := Option.some.inj (hst.symm.trans hst₀)
      obtain ⟨st₁, hst₁, hans₁⟩ := hans hok
      obtain rfl := Option.some.inj (hst.symm.trans hst₁)
      obtain ⟨model', entity, hm', hs, hstored⟩ := WorkerState.spawnEntity_ok hans₁
      obtain rfl := Option.some.inj (hm'.symm.trans (hm v hk st hst))
      have ht := WorkerState.spawnEntity_touches env.load e.name e.prefab st
      refine ⟨_, hnew, ht.model, ht.creates, fun x => ?_⟩
      by_cases hx : e.name = x
      · subst hx
        rw [if_pos ⟨rfl, rfl⟩]
        exact ⟨entity, hs, hstored⟩
      · rw [if_neg fun h => hx h.1]
        exact ⟨ht.inMemory x (Ne.symm hx), ht.archived x (Ne.symm hx)⟩
    · refine ⟨st, (hran.elsewhere v hvr).trans hst, rfl, rfl, fun x => ?_⟩
      rw [if_neg fun h => hvr h.2.symm]
      exact ⟨rfl, rfl⟩

/-- what a loop of spawns that all succeed leaves -/
structure Spawned (model : Model) (at_ : ℕ → Option WorkerId) (i : ℕ) (es : List EntityModel) (c c' : Cluster) : Prop where
  leader : c'.leader = c.leader
  placed : ∀ k, k < es.length → ∃ r ∈ c.leader.workers.keys, at_ (i + k) = some r
  elsewhere : ∀ v, v ∉ c.leader.workers.keys → c'.stateOf v = c.stateOf v
  here : ∀ v st, c.stateOf v = some st → ∃ st', c'.stateOf v = some st' ∧
    st'.createsToArchive = st.createsToArchive ∧ ∀ x, Leaves model x st st' (placedLast at_ v x i es)

theorem spawnEntities_ok {model : Model} (place : ℕ → Rng WorkerId × Env) (es : List EntityModel) (i : ℕ)
    {c : Cluster} (hm : ∀ v ∈ c.leader.workers.keys, ∀ st, c.stateOf v = some st → st.model = some model)
    (hok : (Leader.spawnEntities place i es c).2 = .ok ()) :
    Spawned model (fun j => (place j).1.choose c.leader.workers.keys) i es c (Leader.spawnEntities place i es c).1 := by
  induction es generalizing i c with
  | nil =>
    exact ⟨rfl, fun k hk => absurd hk (Nat.not_lt_zero k), fun _ _ => rfl,
      fun v st hst => ⟨st, hst, rfl, fun x => ⟨rfl, rfl⟩⟩⟩
  | cons e es ih =>
    unfold Leader.spawnEntities at hok ⊢
    cases hr : (place i).1.choose c.leader.workers.keys with
    | none =>
      rw [hr] at hok
      cases hok
    | some r =>
      simp only [hr] at hok ⊢
      have hone := request_spawned (place i).2 r e hm
      have hspec := Leader.request_spec (place i).2 r (WorkerState.spawnEntity (place i).2.load e.name e.prefab) c
      have hl := hspec.leader
      have helse := fun v (hv : v ∉ c.leader.workers.keys) => hspec.elsewhere hv
      have hback := hspec.rel (R := fun _ _ => True) (fun _ => trivial) (fun _ => trivial)
      generalize Leader.request (place i).2 r (WorkerState.spawnEntity (place i).2.load e.name e.prefab) c = res
        at hok hone hl helse hback
      obtain ⟨c₁, ans⟩ := res
      cases ans with
      | error err => cases hok
      | ok u =>
        obtain ⟨hk, hone⟩ := hone rfl
        simp only at hok hl helse hone ⊢
        have hm₁ : ∀ v ∈ c₁.leader.workers.keys, ∀ st, c₁.stateOf v = some st → st.model = some model := by
          intro v hv st₁ hst₁
          rw [hl] at hv
          obtain ⟨st, hst, -⟩ := hback.back hst₁
          obtain ⟨st', hst', hmodel, -⟩ := hone v st hst
          obtain rfl := Option.some.inj (hst'.symm.trans hst₁)
          exact hmodel.trans (hm v hv st hst)
        have hrest := ih (i + 1) hm₁ hok
        simp only [hl] at hrest
        refine ⟨hrest.leader.trans hl, fun k hk' => ?_, fun v hv => ?_, fun v st hst => ?_⟩
        · cases k with
          | zero => exact ⟨r, hk, hr⟩
          | succ k =>
            obtain ⟨r', hk'', hr'⟩ := hrest.placed k (by simpa using hk')
            rw [hl] at hk''
            exact ⟨r', hk'', by rwa [show i + (k + 1) = i + 1 + k by omega]⟩
        · rw [hrest.elsewhere v (by rwa [hl]), helse v hv]
        · obtain ⟨st₁, hst₁, -, hc₁, hleft₁⟩ := hone v st hst
          obtain ⟨st₂, hst₂, hc₂, hleft₂⟩ := hrest.here v st₁ hst₁
          refine ⟨st₂, hst₂, hc₂.trans hc₁, fun x => ?_⟩
          simp only [placedLast, hr, Option.some.injEq]
          exact (hleft₁ x).trans hc₁ (hleft₂ x)

theorem spawnSingletons_stateOf (place : ℕ → Rng WorkerId × Env) (bs : List BehaviorModel) (i : ℕ) (c : Cluster)
    (v : WorkerId) : (Leader.spawnSingletons place i bs c).1.stateOf v = c.stateOf v := by
  induction bs generalizing i c with
  | nil => rfl
  | cons b bs ih =>
    unfold Leader.spawnSingletons
    split_ifs
    · cases (place i).1.choose c.leader.workers.keys with
      | none => rfl
      | some r =>
        have hsame : (Leader.request (place i).2 r Leader.spawnSingletonBehavior c).1.stateOf v = c.stateOf v := by
          rcases (Leader.request_spec (place i).2 r Leader.spawnSingletonBehavior c).ran with ⟨h, -⟩ | ⟨-, h, -⟩
          · exact h v
          · by_cases hv : v = r
            · obtain ⟨st, hst, hst'⟩ := h.here
              rw [hv, hst, hst']
              rfl
            · exact h.elsewhere v hv
        simp only
        generalize Leader.request (place i).2 r Leader.spawnSingletonBehavior c = res at hsame
        obtain ⟨c₁, ans⟩ := res
        cases ans with
        | error err => exact hsame
        | ok u => exact (ih (i + 1) c₁).trans hsame
    · exact ih (i + 1) c

/-! ## The whole initialization -/

/-- what worker state `st'` has of entity `x` after the initialization of `st`, when `d` was spawned there last -/
def Outcome (model : Model) (x : EntityName) (st st' : WorkerState) : Option EntityModel → Prop
  | none => st'.inMemory x = none ∧ st'.archived x = leftover st x
  | some d => ∃ entity, d.spawned model = .ok entity ∧
    if st.config.partition.entityCreateToArchive then st'.inMemory x = none ∧ st'.archived x = some entity
    else st'.inMemory x = some entity ∧ st'.archived x = leftover st x

structure Final (model : Model) (env : InitEnv) (c c' : Cluster) : Prop where
  placed : ∀ i e, model.entities[i]? = some e → ∃ r ∈ c.leader.workers.keys, placedAt c env i = some r
  elsewhere : ∀ v, v ∉ c.leader.workers.keys → c'.stateOf v = c.stateOf v
  here : ∀ v ∈ c.leader.workers.keys, ∃ st st', c.stateOf v = some st ∧ c'.stateOf v = some st' ∧
    ∀ x, Outcome model x st st' (placedLast (placedAt c env) v x 0 model.entities)

theorem Begun.outcome {model : Model} {x : EntityName} {st st₁ st₂ : WorkerState} {d : Option EntityModel}
    (h : Begun model st st₁) (hl : Leaves model x st₁ st₂ d) : Outcome model x st st₂ d := by
  cases d with
  | none => exact ⟨hl.1.trans (h.inMemory x), hl.2.trans (h.archived x)⟩
  | some d =>
    obtain ⟨entity, hs, hst⟩ := hl
    refine ⟨entity, hs, ?_⟩
    unfold Stored at hst
    rw [h.creates, h.inMemory, h.archived] at hst
    split_ifs at hst ⊢
    · exact ⟨hst.2, hst.1⟩
    · exact hst

/-- **What a successful initialization leaves.** -/
theorem initialize_final {model : Model} {env : InitEnv} {c : Cluster} (hmodels : EachOnce c (env.models.map Prod.fst))
    (hinits : EachOnce c (env.inits.map Prod.fst)) (hm : c.leader.model = some model)
    (hok : (Leader.initialize_ env c).2 = .ok ()) : Final model env c (Leader.initialize_ env c).1 := by
  have hbegun := fun h₁ h₂ v (hv : v ∈ c.leader.workers.keys) => begun_everywhere model hmodels hinits h₁ h₂ hv
  unfold Leader.initialize_ at hok ⊢
  simp only [hm] at hok ⊢
  have hl₁ := Leader.onEach_leader (fun e => WorkerState.replaceModel e.restart model) env.models c
  have helse₁ := fun v hv => Leader.onEach_elsewhere (fun e : Env => WorkerState.replaceModel e.restart model)
    env.models (c := c) (v := v) hv
  generalize onEach (fun e => WorkerState.replaceModel e.restart model) env.models c = res at hok hl₁ helse₁ hbegun
  obtain ⟨c₁, ans⟩ := res
  cases ans with
  | error err => cases hok
  | ok u =>
    simp only at hok hl₁ helse₁ hbegun ⊢
    have hl₂ := Leader.onEach_leader (fun e => WorkerState.initPartition e.load e.opens) env.inits c₁
    have helse₂ := fun v hv => Leader.onEach_elsewhere (fun e : Env => WorkerState.initPartition e.load e.opens)
      env.inits (c := c₁) (v := v) hv
    generalize onEach (fun e => WorkerState.initPartition e.load e.opens) env.inits c₁ = res
      at hok hl₂ helse₂ hbegun
    obtain ⟨c₂, ans⟩ := res
    cases ans with
    | error err => cases hok
    | ok u =>
      simp only at hok hl₂ helse₂ hbegun ⊢
      have hl : c₂.leader = c.leader := hl₂.trans hl₁
      have hm₂ : ∀ v ∈ c₂.leader.workers.keys, ∀ st, c₂.stateOf v = some st → st.model = some model := by
        intro v hv st hst
        rw [hl] at hv
        obtain ⟨_, st', -, hst', hb⟩ := hbegun trivial trivial v hv
        obtain rfl := Option.some.inj (hst'.symm.trans hst)
        exact hb.model
      have hspawn := fun h => spawnEntities_ok env.place model.entities 0 hm₂ h
      generalize Leader.spawnEntities env.place 0 model.entities c₂ = res at hok hspawn
      obtain ⟨c₃, ans⟩ := res
      cases ans with
      | error err => cases hok
      | ok u =>
        have hs := hspawn rfl
        simp only [hl] at hs ⊢
        refine ⟨fun i e he => ?_, fun v hv => ?_, fun v hv => ?_⟩
        · obtain ⟨r, hr, hat⟩ := hs.placed i (List.getElem?_eq_some_iff.mp he).1
          rw [hl] at hr
          rw [Nat.zero_add] at hat
          exact ⟨r, hr, hat⟩
        · rw [spawnSingletons_stateOf, hs.elsewhere v (by rwa [hl]), helse₂ v (by rwa [hl₁]), helse₁ v hv]
        · obtain ⟨st, st₂, hst, hst₂, hb⟩ := hbegun trivial trivial v hv
          obtain ⟨st₃, hst₃, -, hleft⟩ := hs.here v st₂ hst₂
          refine ⟨st, st₃, hst, ?_, fun x => hb.outcome (hleft x)⟩
          rw [spawnSingletons_stateOf, hst₃]

/-! ## When the model is realized -/

theorem placedLast_some {at_ : ℕ → Option WorkerId} {v : WorkerId} {x : EntityName} {i : ℕ} {es : List EntityModel}
    {d : EntityModel} (h : placedLast at_ v x i es = some d) :
    ∃ k, es[k]? = some d ∧ d.name = x ∧ at_ (i + k) = some v := by
  induction es generalizing i with
  | nil => cases h
  | cons e es ih =>
    rw [placedLast, Option.or_eq_some_iff] at h
    rcases h with h | ⟨-, h⟩
    · obtain ⟨k, hk, hd, hat⟩ := ih h
      exact ⟨k + 1, hk, hd, by rwa [show i + (k + 1) = i + 1 + k by omega]⟩
    · split_ifs at h with he
      obtain rfl := Option.some.inj h
      exact ⟨0, rfl, he.1, he.2⟩

theorem placedLast_isSome {at_ : ℕ → Option WorkerId} {v : WorkerId} {x : EntityName} {i k : ℕ} {es : List EntityModel}
    {e : EntityModel} (he : es[k]? = some e) (hx : e.name = x) (hat : at_ (i + k) = some v) :
    ∃ d, placedLast at_ v x i es = some d := by
  induction es generalizing i k with
  | nil => simp at he
  | cons e' es ih =>
    rw [placedLast]
    cases k with
    | zero =>
      obtain rfl : e' = e := by simpa using he
      cases placedLast at_ v x (i + 1) es with
      | some d => exact ⟨d, rfl⟩
      | none => exact ⟨e', by rw [Option.none_or, if_pos ⟨hx, hat⟩]⟩
    | succ k =>
      obtain ⟨d, hd⟩ := ih (i := i + 1) (k := k) (by simpa using he) (by rwa [show i + 1 + k = i + (k + 1) by omega])
      exact ⟨d, by rw [hd, Option.some_or]⟩

section Final

variable {model : Model} {env : InitEnv} {c c' : Cluster} (h : Final model env c c')
include h

/-- a registered worker holds what was placed on it and what its data directory left -/
theorem Final.holds_iff {v : WorkerId} (hv : v ∈ c.leader.workers.keys) (x : EntityName) :
    c'.Holds v x ↔ (∃ d, placedLast (placedAt c env) v x 0 model.entities = some d) ∨
      ∃ st old, c.stateOf v = some st ∧ leftover st x = some old := by
  obtain ⟨st, st', hst, hst', hout⟩ := h.here v hv
  have hx := hout x
  simp only [Cluster.Holds, Cluster.copyOf, hst', Option.bind_some, hst, Option.some.injEq, exists_and_left,
    exists_eq_left']
  unfold WorkerState.copyOf
  cases hd : placedLast (placedAt c env) v x 0 model.entities with
  | none =>
    rw [hd] at hx
    rw [hx.1, hx.2]
    simp [Option.isSome_iff_exists]
  | some d =>
    rw [hd] at hx
    obtain ⟨entity, -, hx⟩ := hx
    split_ifs at hx
    · simp [hx.1, hx.2]
    · simp [hx.1]

theorem Final.holds_elsewhere {v : WorkerId} (hv : v ∉ c.leader.workers.keys) (x : EntityName) :
    c'.Holds v x ↔ c.Holds v x := by
  simp only [Cluster.Holds, Cluster.copyOf, h.elsewhere v hv]

/-- the copies at a registered worker: the one spawned last, and where memory has that one or none was spawned, the one
left in the archive -/
theorem Final.hasCopy_iff {v : WorkerId} (hv : v ∈ c.leader.workers.keys) (x : EntityName) (entity : Entity) :
    HasCopy c' v x entity ↔
      (∃ d, placedLast (placedAt c env) v x 0 model.entities = some d ∧ d.spawned model = .ok entity) ∨
        ∃ st, c.stateOf v = some st ∧ leftover st x = some entity ∧
          (placedLast (placedAt c env) v x 0 model.entities = none ∨
            st.config.partition.entityCreateToArchive = false) := by
  obtain ⟨st, st', hst, hst', hout⟩ := h.here v hv
  have hx := hout x
  simp only [HasCopy, Cluster.inMemory, Cluster.archived, hst', Option.bind_some, hst, Option.some.injEq,
    exists_eq_left']
  cases hd : placedLast (placedAt c env) v x 0 model.entities with
  | none =>
    rw [hd] at hx
    simp [hx.1, hx.2]
  | some d =>
    rw [hd] at hx
    obtain ⟨e, hs, hx⟩ := hx
    split_ifs at hx with hc
    · simp [hx.1, hx.2, hs, hc]
    · simp [hx.1, hx.2, hs, hc]

theorem Final.placed_holds {i : ℕ} {e : EntityModel} (he : model.entities[i]? = some e) :
    ∃ v ∈ c.leader.workers.keys, placedAt c env i = some v ∧ c'.Holds v e.name := by
  obtain ⟨v, hv, hat⟩ := h.placed i e he
  refine ⟨v, hv, hat, (h.holds_iff hv e.name).mpr (.inl ?_)⟩
  exact placedLast_isSome he rfl (by rwa [Nat.zero_add])

theorem Final.realizable (hr : Realized model c') : Realizable model env c := by
  have hone : ∀ e ∈ model.entities, ∀ v w, c'.Holds v e.name → c'.Holds w e.name → v = w := by
    intro e he v w hv hw
    obtain ⟨u, hu⟩ := hr.held e he
    rw [(hu v).mp hv, (hu w).mp hw]
  refine ⟨fun i j d e hd he hname => ?_, fun e he v d entity hlast hs => ?_, fun v hv st x old hst hold => ?_,
    fun v hv x hx => ?_⟩
  · obtain ⟨v, -, hat, hvx⟩ := h.placed_holds hd
    obtain ⟨w, -, hat', hwx⟩ := h.placed_holds he
    rw [hname] at hvx
    rw [hat, hat', hone e (List.mem_of_getElem? he) v w hvx hwx]
  · obtain ⟨k, hk, hd, hat⟩ := placedLast_some hlast
    obtain ⟨r, hr', hat'⟩ := h.placed k d hk
    rw [Nat.zero_add, hat'] at hat
    obtain rfl := Option.some.inj hat
    exact hr.right e he r entity ((h.hasCopy_iff hr' e.name entity).mpr (.inl ⟨d, hlast, hs⟩))
  · have hvx : c'.Holds v x := (h.holds_iff hv x).mpr (.inr ⟨st, old, hst, hold⟩)
    obtain ⟨e, he, rfl⟩ := hr.nothingElse v x hvx
    obtain ⟨i, hi⟩ := List.mem_iff_getElem?.mp he
    obtain ⟨w, -, hat, hwx⟩ := h.placed_holds hi
    obtain rfl := hone e he v w hvx hwx
    refine ⟨i, e, hi, rfl, hat, ?_⟩
    cases hc : st.config.partition.entityCreateToArchive with
    | true => exact .inl rfl
    | false =>
      refine .inr fun d hd hname => hr.right d hd v old ?_
      rw [hname]
      exact (h.hasCopy_iff hv e.name old).mpr (.inr ⟨st, hst, hold, .inr hc⟩)
  · have hvx : c'.Holds v x := (h.holds_elsewhere hv x).mpr hx
    obtain ⟨e, he, rfl⟩ := hr.nothingElse v x hvx
    obtain ⟨i, hi⟩ := List.mem_iff_getElem?.mp he
    obtain ⟨w, hw, -, hwx⟩ := h.placed_holds hi
    exact hv (hone e he v w hvx hwx ▸ hw)

theorem Final.realized (hc : Realizable model env c) : Realized model c' := by
  -- a holder is the worker where an entry of that name was placed
  have hplaced : ∀ v x, c'.Holds v x →
      v ∈ c.leader.workers.keys ∧ ∃ i e, model.entities[i]? = some e ∧ e.name = x ∧ placedAt c env i = some v := by
    intro v x hvx
    by_cases hv : v ∈ c.leader.workers.keys
    · refine ⟨hv, ?_⟩
      rcases (h.holds_iff hv x).mp hvx with ⟨d, hd⟩ | ⟨st, old, hst, hold⟩
      · obtain ⟨k, hk, hname, hat⟩ := placedLast_some hd
        rw [Nat.zero_add] at hat
        exact ⟨k, d, hk, hname, hat⟩
      · obtain ⟨i, e, he, hname, hat, -⟩ := hc.leftover v hv st x old hst hold
        exact ⟨i, e, he, hname, hat⟩
    · exact absurd ((h.holds_elsewhere hv x).mp hvx) (hc.elsewhere v hv x)
  refine ⟨fun e he => ?_, fun e he v entity hcopy => ?_, fun v x hvx => ?_⟩
  · obtain ⟨i, hi⟩ := List.mem_iff_getElem?.mp he
    obtain ⟨v, -, hat, hvx⟩ := h.placed_holds hi
    refine ⟨v, fun w => ⟨fun hw => ?_, fun hw => hw ▸ hvx⟩⟩
    obtain ⟨-, j, d, hd, hname, hat'⟩ := hplaced w e.name hw
    have hsame := hc.together j i d e hd hi hname
    rw [hat, hat'] at hsame
    exact Option.some.inj hsame
  · have hvx : c'.Holds v e.name := by
      rw [Cluster.Holds, Cluster.copyOf_eq]
      rcases hcopy with hm | ha
      · simp [hm]
      · cases hm : c'.inMemory v e.name <;> simp [ha]
    obtain ⟨hv, -⟩ := hplaced v e.name hvx
    rcases (h.hasCopy_iff hv e.name entity).mp hcopy with ⟨d, hd, hs⟩ | ⟨st, hst, hold, hor⟩
    · exact hc.data e he v d entity hd hs
    · obtain ⟨i, e', he', hname, hat, hmatch⟩ := hc.leftover v hv st e.name entity hst hold
      obtain ⟨d, hd⟩ : ∃ d, placedLast (placedAt c env) v e.name 0 model.entities = some d :=
        placedLast_isSome he' hname (by rwa [Nat.zero_add])
      have hfalse := hor.resolve_left (by simp [hd])
      exact hmatch.resolve_left (by simp [hfalse]) e he rfl
  · obtain ⟨-, i, e, he, hname, -⟩ := hplaced v x hvx
    exact ⟨e, List.mem_of_getElem? he, hname⟩

end Final

/-- **When an initialization realizes the model.** For every model, any previous state of the workers, any order in
which they are asked and any placement: after a successful initialization the model is realized exactly under the
condition. -/
theorem initialization_realizes_iff (model : Model) (env : InitEnv) (c : Cluster)
    (hmodels : EachOnce c (env.models.map Prod.fst)) (hinits : EachOnce c (env.inits.map Prod.fst))
    (hm : c.leader.model = some model) (hok : (Leader.initialize_ env c).2 = .ok ()) :
    Realized model (Leader.initialize_ env c).1 ↔ Realizable model env c := by
  have hf := initialize_final hmodels hinits hm hok
  exact ⟨hf.realizable, hf.realized⟩

/-- a leader with this model and one new worker -/
def loneWith (model : Model) : Cluster := { ModelAgreement.lone with leader := ⟨some model, Finmap.singleton 0 .local⟩ }

/-- nothing fails, and everything is placed on worker 0 -/
def calm : InitEnv where
  models := [(0, Names.sure 1)]
  inits := [(0, Names.sure 2)]
  place := fun i => (.prefer 0, Names.sure (3 + i))
  singletons := fun i => (.prefer 0, Names.sure (100 + i))

/-- one entity without a prefab and without data -/
def plainModel : Model := ⟨[], [], [], [⟨"ball", none, []⟩]⟩

theorem plain_model_realized : Realized plainModel (Leader.initialize_ calm (loneWith plainModel)).1 := by
  refine (initialization_realizes_iff plainModel calm (loneWith plainModel) (by decide) (by decide) rfl (by decide)).mpr
    ⟨fun i j d e hd he _ => rfl, fun e he v d entity hlast hs => ?_, fun v hv st x old hst hold => ?_,
      fun v hv x hx => ?_⟩
  · obtain rfl : e = ⟨"ball", none, []⟩ := by simpa [plainModel] using he
    obtain ⟨k, hk, -⟩ := placedLast_some hlast
    have hmem : d ∈ plainModel.entities := List.mem_of_getElem? hk
    obtain rfl : d = ⟨"ball", none, []⟩ := by simpa [plainModel] using hmem
    exact ⟨entity, hs, rfl, rfl⟩
  · obtain rfl : v = 0 := by simpa [loneWith] using hv
    obtain rfl : st = ModelAgreement.newcomer.state := by
      simpa [loneWith, ModelAgreement.lone, Cluster.stateOf, eq_comm] using hst
    simp only [leftover, ModelAgreement.newcomer, WorkerState.onDisk, Finmap.lookup_empty] at hold
    cases hold
  · obtain ⟨e, he⟩ := Option.isSome_iff_exists.mp hx
    have hk : v ∈ (loneWith plainModel).workers.keys := Cluster.mem_keys_of_copyOf he
    exact hv hk

/-- a ball of size 0 by default, and one of size 5 at startup -/
def sizedModel : Model where
  prefabs := [⟨"ball", ["shape"]⟩]
  components := [⟨"shape", [⟨"size", .int, none⟩]⟩]
  behaviors := []
  entities := [⟨"ball", some "ball", [(⟨"shape", .int, "size"⟩, .int 5)]⟩]

/-- **The initial data is dropped.** The prefab and its component exist and the initialization succeeds, but the ball is
spawned with the default size. -/
theorem initial_data_dropped :
    ¬ ∀ (model : Model) (env : InitEnv) (c : Cluster), (∀ e ∈ model.entities, ∃ base, e.spawned model = .ok base) →
      c.leader.workers.keys.Nonempty → EachOnce c (env.models.map Prod.fst) → EachOnce c (env.inits.map Prod.fst) →
      c.leader.model = some model → (Leader.initialize_ env c).2 = .ok () →
      Realized model (Leader.initialize_ env c).1 := by
  intro h
  have hr := h sizedModel calm (loneWith sizedModel) (fun e he => ?_) (by decide) (by decide) (by decide) rfl (by decide)
  · obtain ⟨base, hbase, -, hstorage⟩ := hr.right _ List.mem_cons_self 0 _ (.inl rfl)
    obtain rfl := Except.ok.inj hbase
    have hsize := congrArg (fun s : Storage => s.map.lookup ("shape", "size")) hstorage
    simp [Storage.insert, LocalAddress.asStorageIndex, VarType.defaultValue] at hsize
  · obtain rfl := List.mem_singleton.mp he
    exact ⟨_, rfl⟩

end Initialization

end BigWorlds
