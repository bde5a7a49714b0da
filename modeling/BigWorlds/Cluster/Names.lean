/-
Entity names over runs of leader requests: whether a name can come to be held by two workers.

Nothing in the cluster checks that a name is free. A worker asks nobody before it takes an entity, and the leader
spawns each entity on a worker of its random choice: the same name spawned twice is on two workers as soon as the
choices differ. A fresh partition opens the archive that an earlier one left in the data directory. A migration leaves
what the source has archived under the name, and a lost answer leaves the source with its live copy.

- `Fresh`: the condition on a request;
- `names_unique`: in every run of leader requests that all meet it, from a state in which no name is held twice, no
  name is held twice in any state between requests;
- `same_name_spawned_twice`: a run of two requests that ends with a name on two workers.
-/
import BigWorlds.Cluster.Conservation
import BigWorlds.Cluster.Leader
import BigWorlds.Core.Run

namespace BigWorlds.Names

open BigWorlds.Core (Exec Fate Rng run Along)
open Cluster (Accepts RanAt)
open Migration (Choice Touches Receives Movable)
open Leader (Env InitEnv Turn FreeElsewhere Entries Shrinks StateRel holds_iff)

/-! ## Model -/

inductive Op where
  | spawnEntity (name : EntityName) (prefab : Option PrefabName) (rng : Rng WorkerId) (env : Env)
  | removeEntity (name : EntityName) (visit : List (WorkerId × Env))
  | initialize_ (env : InitEnv)
  /-- `WorkerProxy(TakeEntity)` -/
  | takeEntity (ctx : Context) (ch : Choice) (name : EntityName) (entity : Entity)
  | reorganizeEntities (ctx : Context) (turns : List Turn)

/-- every registered worker once, in any order -/
def EachOnce (c : Cluster) (visit : List WorkerId) : Prop := (visit : Multiset WorkerId) = c.leader.workers.keys.val

instance (c : Cluster) (visit : List WorkerId) : Decidable (EachOnce c visit) := inferInstanceAs (Decidable (_ = _))

theorem EachOnce.nodup {c : Cluster} {visit : List WorkerId} (h : EachOnce c visit) : visit.Nodup := by
  rw [← Multiset.coe_nodup, h]
  exact c.leader.workers.keys.nodup

theorem EachOnce.mem {c : Cluster} {visit : List (WorkerId × Env)} (h : EachOnce c (visit.map Prod.fst)) {v : WorkerId}
    (hv : v ∈ c.leader.workers.keys) : ∃ p ∈ visit, p.1 = v := by
  rw [← Finset.mem_val, ← h, Multiset.mem_coe, List.mem_map] at hv
  exact hv

/-- one leader request, handled to its end -/
def step (c : Cluster) : Op → Cluster
  | .spawnEntity name prefab rng env => (Leader.spawnEntity name prefab rng env c).1
  | .removeEntity name visit =>
    if EachOnce c (visit.map Prod.fst) then (Leader.removeEntity name visit c).1 else c
  | .initialize_ env =>
    if EachOnce c (env.models.map Prod.fst) ∧ EachOnce c (env.inits.map Prod.fst) then (Leader.initialize_ env c).1
    else c
  | .takeEntity ctx ch name entity => (Migration.proxyTakeEntity ctx ch name entity c).1
  | .reorganizeEntities ctx turns =>
    if EachOnce c (turns.map Turn.worker) then (Leader.reorganizeEntities ctx turns c).1 else c

/-! ## The condition -/

/-- an archive opened by worker `v`, when it is initialized, would hold entity `x` -/
def Stale (c : Cluster) (v : WorkerId) (x : EntityName) : Prop :=
  v ∈ c.leader.workers.keys ∧ ∃ st, c.stateOf v = some st ∧ st.Stale x

/-- what worker `v` holds of names once every registered worker was initialized -/
def Left (c : Cluster) (v : WorkerId) (x : EntityName) : Prop :=
  if v ∈ c.leader.workers.keys then Stale c v x else c.Holds v x

/-- what an initialization brings back from data directories clashes with nothing, and no entity of the model is placed
on one worker while another has the name -/
structure FreshInit (c : Cluster) (env : InitEnv) : Prop where
  stale : ∀ x v u, Stale c v x → c.Holds u x ∨ Stale c u x → v = u
  placed : ∀ model, c.leader.model = some model → ∀ i e, model.entities[i]? = some e → ∀ r,
    (env.place i).1.choose c.leader.workers.keys = some r → ∀ v, Left c v e.name → v = r
  once : ∀ model, c.leader.model = some model → ∀ i j d e, model.entities[i]? = some d → model.entities[j]? = some e →
    d.name = e.name → (env.place i).1.choose c.leader.workers.keys = (env.place j).1.choose c.leader.workers.keys

/-- no entity in memory that the cooldown can let move is in the archive of its worker as well -/
def Tidy (c : Cluster) : Prop :=
  ∀ v ∈ c.leader.workers.keys, ∀ st x e, c.stateOf v = some st → st.inMemory x = some e → Movable st e →
    st.archived x = none

/-- **The condition on a request.** A spawned or passed-on entity goes to a worker only when no other worker holds its
name; an initialization meets `FreshInit`; a reorganization starts where no entity it may move is archived as well, and
no answer of its `TakeEntity` calls is lost. -/
def Fresh (c : Cluster) : Op → Prop
  | .spawnEntity name prefab rng env => ∀ r exec st, rng.choose c.leader.workers.keys = some r →
      c.leader.workers.lookup r = some exec → Receives c r exec env.ctx → c.stateOf r = some st → st.Makes prefab →
      FreeElsewhere c r name
  | .removeEntity _ _ => True
  | .initialize_ env => FreshInit c env
  | .takeEntity ctx ch name _ => ∀ r exec,
      ch.rng.choose (c.leader.workers.keys.filter fun r => ctx.wentThroughWorker r = false) = some r →
      c.leader.workers.lookup r = some exec → Receives c r exec ctx → FreeElsewhere c r name
  | .reorganizeEntities _ turns => Tidy c ∧ ∀ turn ∈ turns, ∀ p ∈ turn.listed, p.2.Answered

/-! ## Spawning and passing on -/

theorem spawnEntity_unique {c : Cluster} {name : EntityName} {prefab : Option PrefabName} {rng : Rng WorkerId}
    {env : Env} (hu : c.Unique) (hf : Fresh c (.spawnEntity name prefab rng env)) :
    (Leader.spawnEntity name prefab rng env c).1.Unique := by
  unfold Leader.spawnEntity
  cases hr : rng.choose c.leader.workers.keys with
  | none => exact hu
  | some r =>
    obtain ⟨-, hent, hsh | ⟨exec, st, hexec, hrec, hst, hmk⟩⟩ := Leader.request_spawn env r name prefab c
    · exact hsh.unique hu
    · exact hent.unique hu (hf r exec st hr hexec hrec hst hmk)

theorem takeEntity_unique {c : Cluster} {ctx : Context} {ch : Choice} {name : EntityName} {entity : Entity}
    (hu : c.Unique) (hf : Fresh c (.takeEntity ctx ch name entity)) :
    (Migration.proxyTakeEntity ctx ch name entity c).1.Unique := by
  obtain ⟨-, ⟨hsame, -⟩ | ⟨r, exec, hexec, -, hr, hacc, hran, st, hst, -⟩⟩ :=
    Migration.proxy_spec ctx ch name entity c
  · exact (Leader.shrinks_of_same hsame).unique hu
  · have hent := Leader.entries_of_ranAt hran (Migration.takeEntity_touches ch name entity)
    by_cases htakes : st.Takes
    · exact hent.unique hu (hf r exec hr hexec ⟨hacc, st, hst, htakes⟩)
    · refine (hent.shrinks fun hx => ?_).unique hu
      rcases Migration.ranAt_take hran hst with ⟨hsa, -⟩ | ⟨-, ht, -⟩
      · unfold Cluster.Holds at hx ⊢
        rwa [Migration.copyOf_congr (hsa r).1 (hsa r).2] at hx
      · exact absurd ht htakes

/-! ## Initialization -/

/-- nothing is held afterwards that was not held before or brought back from the data directory -/
structure Aged (st st' : WorkerState) : Prop where
  held : ∀ x, st'.Holds x → st.Holds x ∨ st.Stale x
  onDisk : st'.onDisk = st.onDisk
  config : st'.config = st.config

theorem Aged.refl (st : WorkerState) : Aged st st := ⟨fun _ h => .inl h, rfl, rfl⟩

theorem Aged.stale {st st' : WorkerState} (h : Aged st st') (x : EntityName) : st'.Stale x ↔ st.Stale x := by
  simp only [WorkerState.Stale, h.onDisk, h.config]

theorem Aged.trans (s t u : WorkerState) (h₁ : Aged s t) (h₂ : Aged t u) : Aged s u := by
  refine ⟨fun x hx => ?_, h₂.onDisk.trans h₁.onDisk, h₂.config.trans h₁.config⟩
  rcases h₂.held x hx with hx | hx
  · exact h₁.held x hx
  · exact .inr ((h₁.stale x).mp hx)

theorem aged_replaceModel (restart : WorkerState.Restart) (model : Model) (st : WorkerState) :
    Aged st (WorkerState.replaceModel restart model st).1 := by
  have h := WorkerState.replaceModel_same restart model st
  exact ⟨fun x hx => .inl (by rwa [WorkerState.Holds, h.copyOf] at hx), h.onDisk, h.config⟩

theorem aged_initPartition (load : Loader) (opens : Except Error Unit) (st : WorkerState) :
    Aged st (WorkerState.initPartition load opens st).1 := by
  rcases WorkerState.initPartition_spec load opens st with ⟨h, -⟩ | ⟨h, hd, hc⟩
  · rw [h]
    exact Aged.refl st
  · exact ⟨fun x hx => .inr ((h x).mp hx), hd, hc⟩

/-- worker `v` holds at most what its data directory had -/
def Reset (c₀ c : Cluster) (v : WorkerId) : Prop := ∀ st₀ st x, c₀.stateOf v = some st₀ → c.stateOf v = some st →
  st.Holds x → st₀.Stale x

/-- a worker that was initialized stays reset while others are -/
theorem onEach_init_reset {c₀ : Cluster} (visit : List (WorkerId × Env)) {c : Cluster}
    (hrel : StateRel Aged c₀ c)
    (hok : (Leader.onEach (fun e => WorkerState.initPartition e.load e.opens) visit c).2 = .ok ()) :
    ∀ v, (v ∈ visit.map Prod.fst ∨ Reset c₀ c v) →
      Reset c₀ (Leader.onEach (fun e => WorkerState.initPartition e.load e.opens) visit c).1 v := by
  induction visit generalizing c with
  | nil =>
    intro v hv
    exact hv.resolve_left (List.not_mem_nil)
  | cons p rest ih =>
    obtain ⟨r, env⟩ := p
    intro v hv
    have hs := Leader.request_spec env r (WorkerState.initPartition env.load env.opens) c
    have hrel₁ : StateRel Aged c₀ (Leader.request env r (WorkerState.initPartition env.load env.opens) c).1 :=
      hrel.trans Aged.trans (hs.rel Aged.refl fun st => aged_initPartition env.load env.opens st)
    unfold Leader.onEach at hok ⊢
    have hran := hs.ran
    generalize Leader.request env r (WorkerState.initPartition env.load env.opens) c = res at hok hrel₁ hran
    obtain ⟨c₁, ans⟩ := res
    cases ans with
    | error err => cases hok
    | ok u =>
      refine ih hrel₁ hok v ?_
      rcases hran with ⟨-, err, herr⟩ | ⟨-, hran, hst⟩
      · cases herr
      · by_cases hvr : v = r
        · -- this worker was initialized just now
          subst hvr
          refine .inr fun st₀ st x hst₀ hst' hx => ?_
          obtain ⟨st₁, hst₁, hans⟩ := hst rfl
          obtain ⟨st₂, hst₂, hst₂'⟩ := hran.here
          obtain rfl := Option.some.inj (hst₂.symm.trans hst₁)
          obtain rfl := Option.some.inj (hst'.symm.trans hst₂')
          have haged := hrel v
          rw [hst₀, hst₁] at haged
          cases haged with
          | some haged =>
            rcases WorkerState.initPartition_spec env.load env.opens st₂ with ⟨-, err, herr⟩ | ⟨h, -⟩
            · rw [hans] at herr
              cases herr
            · exact (haged.stale x).mp ((h x).mp hx)
        · rcases hv with hv | hv
          · refine .inl ?_
            rw [List.map_cons, List.mem_cons] at hv
            exact hv.resolve_left hvr
          · refine .inr fun st₀ st x hst₀ hst' hx => hv st₀ st x hst₀ ?_ hx
            rwa [← hran.elsewhere v hvr]

/-- wherever the initialization of the workers stops, what they hold was held or comes from their data directories -/
theorem unique_of_aged {c c' : Cluster} {env : InitEnv} (hu : c.Unique) (hf : FreshInit c env)
    (hrel : StateRel Aged c c') (hreg : ∀ v, v ∉ c.leader.workers.keys → c'.stateOf v = c.stateOf v) : c'.Unique := by
  have hold : ∀ v x, c'.Holds v x → c.Holds v x ∨ Stale c v x := by
    intro v x hv
    by_cases hk : v ∈ c.leader.workers.keys
    · obtain ⟨st', hst', hx⟩ := holds_iff.1 hv
      have haged := hrel v
      rw [hst'] at haged
      cases hst : c.stateOf v with
      | none =>
        rw [hst] at haged
        cases haged
      | some st =>
        rw [hst] at haged
        cases haged with
        | some haged =>
          rcases haged.held x hx with hx | hx
          · exact .inl (holds_iff.2 ⟨st, hst, hx⟩)
          · exact .inr ⟨hk, st, hst, hx⟩
    · rw [holds_iff, hreg v hk] at hv
      exact .inl (holds_iff.2 hv)
  intro x v u hv hu'
  rcases hold v x hv with h₁ | h₁
  · rcases hold u x hu' with h₂ | h₂
    · exact hu x v u h₁ h₂
    · exact (hf.stale x u v h₂ (.inl h₁)).symm
  · exact hf.stale x v u h₁ (hold u x hu')

/-- what is held while the model's entities are being spawned: what is left, and the first `n` where they were placed -/
def Placed (c₀ : Cluster) (env : InitEnv) (entities : List EntityModel) (n : ℕ) (c : Cluster) : Prop :=
  ∀ v x, c.Holds v x → Left c₀ v x ∨ ∃ i, i < n ∧ ∃ e, entities[i]? = some e ∧ e.name = x ∧
    (env.place i).1.choose c₀.leader.workers.keys = some v

theorem unique_of_placed {c₀ c : Cluster} {env : InitEnv} {model : Model} {n : ℕ} (hu : c₀.Unique)
    (hf : FreshInit c₀ env) (hm : c₀.leader.model = some model) (h : Placed c₀ env model.entities n c) : c.Unique := by
  have hleft : ∀ x v u, Left c₀ v x → Left c₀ u x → v = u := by
    intro x v u hv hu'
    unfold Left at hv hu'
    split_ifs at hv hu'
    · exact hf.stale x v u hv (.inr hu')
    · exact hf.stale x v u hv (.inl hu')
    · exact (hf.stale x u v hu' (.inl hv)).symm
    · exact hu x v u hv hu'
  intro x v u hv hu'
  rcases h v x hv with h₁ | ⟨i, -, d, hd, rfl, hi⟩
  · rcases h u x hu' with h₂ | ⟨j, -, e, he, rfl, hj⟩
    · exact hleft x v u h₁ h₂
    · exact hf.placed model hm j e he u hj v h₁
  · rcases h u d.name hu' with h₂ | ⟨j, -, e, he, hn, hj⟩
    · exact (hf.placed model hm i d hd v hi u h₂).symm
    · have hsame := hf.once model hm i j d e hd he hn.symm
      rw [hi, hj] at hsame
      exact Option.some.inj hsame

theorem spawnEntities_placed {c₀ : Cluster} {env : InitEnv} {entities : List EntityModel} (es : List EntityModel)
    (i : ℕ) {c : Cluster} (hes : ∀ k, es[k]? = entities[i + k]?) (hl : c.leader = c₀.leader)
    (h : Placed c₀ env entities i c) :
    (Leader.spawnEntities env.place i es c).1.leader = c₀.leader ∧
      ∃ n, Placed c₀ env entities n (Leader.spawnEntities env.place i es c).1 := by
  induction es generalizing i c with
  | nil => exact ⟨hl, i, h⟩
  | cons e es ih =>
    have he : entities[i]? = some e := (hes 0).symm
    have htail : ∀ k, es[k]? = entities[i + 1 + k]? := by
      intro k
      have hk := hes (k + 1)
      rwa [List.getElem?_cons_succ, show i + (k + 1) = i + 1 + k by omega] at hk
    unfold Leader.spawnEntities
    cases hr : (env.place i).1.choose c.leader.workers.keys with
    | none => exact ⟨hl, i, h⟩
    | some r =>
      obtain ⟨hl₁, hent, -⟩ := Leader.request_spawn (env.place i).2 r e.name e.prefab c
      have hpl : Placed c₀ env entities (i + 1)
          (Leader.request (env.place i).2 r
            (WorkerState.spawnEntity (env.place i).2.load e.name e.prefab) c).1 := by
        intro v x hv
        rcases hent v x hv with hv | ⟨rfl, rfl⟩
        · rcases h v x hv with hv | ⟨j, hj, rest⟩
          · exact .inl hv
          · exact .inr ⟨j, by omega, rest⟩
        · rw [hl] at hr
          exact .inr ⟨i, by omega, e, he, rfl, hr⟩
      simp only
      generalize Leader.request (env.place i).2 r (WorkerState.spawnEntity (env.place i).2.load e.name e.prefab) c =
        res at hl₁ hpl
      obtain ⟨c₁, ans⟩ := res
      cases ans with
      | error err => exact ⟨hl₁.trans hl, i + 1, hpl⟩
      | ok u => exact ih (i + 1) htail (hl₁.trans hl) hpl

theorem spawnSingletons_shrinks (place : ℕ → Rng WorkerId × Env) (bs : List BehaviorModel) (i : ℕ) (c : Cluster) :
    Shrinks c (Leader.spawnSingletons place i bs c).1 := by
  induction bs generalizing i c with
  | nil => exact fun _ _ hv => hv
  | cons b bs ih =>
    unfold Leader.spawnSingletons
    split_ifs
    · cases (place i).1.choose c.leader.workers.keys with
      | none => exact fun _ _ hv => hv
      | some r =>
        have hsh := Leader.shrinks_of_rel ((Leader.request_spec (place i).2 r Leader.spawnSingletonBehavior c).rel
          (fun st _ h => h) fun st y h => h)
        simp only
        generalize Leader.request (place i).2 r Leader.spawnSingletonBehavior c = res at hsh
        obtain ⟨c₁, ans⟩ := res
        cases ans with
        | error err => exact hsh
        | ok u => exact fun v y hv => hsh v y (ih (i + 1) c₁ v y hv)
    · exact ih (i + 1) c

theorem initialize_unique {c : Cluster} {env : InitEnv} (hu : c.Unique) (hf : FreshInit c env)
    (hinits : EachOnce c (env.inits.map Prod.fst)) : (Leader.initialize_ env c).1.Unique := by
  unfold Leader.initialize_
  cases hm : c.leader.model with
  | none => exact hu
  | some model =>
    simp only
    obtain ⟨hl₁, hrel₁⟩ := Leader.onEach_rel Aged.refl Aged.trans
      (fun (e : Env) st => aged_replaceModel e.restart model st) env.models c
    have helse₁ : ∀ v, v ∉ c.leader.workers.keys →
        (Leader.onEach (fun e => WorkerState.replaceModel e.restart model) env.models c).1.stateOf v = c.stateOf v :=
      fun v hv => Leader.onEach_elsewhere _ env.models hv
    generalize Leader.onEach (fun e => WorkerState.replaceModel e.restart model) env.models c = res at hl₁ hrel₁ helse₁
    obtain ⟨c₁, ans⟩ := res
    cases ans with
    | error err => exact unique_of_aged hu hf hrel₁ helse₁
    | ok u =>
      simp only at hl₁ hrel₁ helse₁ ⊢
      obtain ⟨hl₂, hrel₂⟩ := Leader.onEach_rel Aged.refl Aged.trans
        (fun (e : Env) st => aged_initPartition e.load e.opens st) env.inits c₁
      have hrel := hrel₁.trans Aged.trans hrel₂
      have helse : ∀ v, v ∉ c.leader.workers.keys →
          (Leader.onEach (fun e => WorkerState.initPartition e.load e.opens) env.inits c₁).1.stateOf v = c.stateOf v :=
        fun v hv => (Leader.onEach_elsewhere _ env.inits (by rwa [hl₁])).trans (helse₁ v hv)
      have hreset := fun hok => onEach_init_reset env.inits hrel₁ hok
      generalize Leader.onEach (fun e => WorkerState.initPartition e.load e.opens) env.inits c₁ =
        res at hl₂ hrel helse hreset
      obtain ⟨c₂, ans⟩ := res
      cases ans with
      | error err => exact unique_of_aged hu hf hrel helse
      | ok u =>
        -- every registered worker was initialized
        have hleft : Placed c env model.entities 0 c₂ := by
          intro v x hv
          refine .inl ?_
          unfold Left
          split_ifs with hk
          · have hmem : v ∈ env.inits.map Prod.fst := by
              have hk' : v ∈ c.leader.workers.keys.val := hk
              rwa [← hinits, Multiset.mem_coe] at hk'
            obtain ⟨st, hst, hx⟩ := holds_iff.1 hv
            have haged := hrel v
            simp only at haged hst
            rw [hst] at haged
            cases hst₀ : c.stateOf v with
            | none =>
              rw [hst₀] at haged
              cases haged
            | some st₀ => exact ⟨hk, st₀, hst₀, hreset rfl v (.inl hmem) st₀ st x hst₀ hst hx⟩
          · rw [holds_iff] at hv ⊢
            rwa [← helse v hk]
        obtain ⟨-, n, hplaced⟩ := spawnEntities_placed model.entities 0 (fun k => by rw [Nat.zero_add])
          (hl₂.trans hl₁) hleft
        have huniq := unique_of_placed hu hf hm hplaced
        simp only
        generalize Leader.spawnEntities env.place 0 model.entities c₂ = res at huniq
        obtain ⟨c₃, ans⟩ := res
        cases ans with
        | error err => exact huniq
        | ok u => exact (spawnSingletons_shrinks env.singletons model.behaviors 0 c₃).unique huniq

/-! ## Reorganization -/

/-- a round about entity `x` that leaves its copies at one worker at most -/
theorem unique_of_touches {x : EntityName} {q : WorkerId} {c c' : Cluster} (ht : Touches x c c') (hu : c.Unique)
    (h : ∀ v, c'.Holds v x → v = q) : c'.Unique := by
  intro y v u hv hu'
  by_cases hy : y = x
  · subst hy
    rw [h v hv, h u hu']
  · rw [Cluster.Holds, ht.copyOf hy] at hv hu'
    exact hu y v u hv hu'

/-- no worker has entity `x` both in memory and in its archive -/
def Settled (x : EntityName) (c : Cluster) : Prop := ∀ v, (c.inMemory v x).isSome = true → c.archived v x = none

theorem Tidy.touches {x : EntityName} {c c' : Cluster} (h : Tidy c) (ht : Touches x c c')
    (hx : ∀ v ∈ c.leader.workers.keys, ∀ st' e', c'.stateOf v = some st' → st'.inMemory x = some e' → Movable st' e' →
      st'.archived x = none) : Tidy c' := by
  intro v hk st' y e' hst' he' hmov
  rw [ht.leader] at hk
  by_cases hy : y = x
  · exact hy ▸ hx v hk st' e' hst' (hy ▸ he') hmov
  · obtain ⟨st, hst, hts⟩ := ht.stateBack hst'
    rw [hts.inMemory y hy] at he'
    rw [hts.archived y hy]
    refine h v hk st y e' hst he' ?_
    obtain ⟨now, hnow⟩ := hmov
    exact ⟨now, by rwa [← hts.config]⟩

theorem Settled.tidy {x : EntityName} {c c' : Cluster} (h : Settled x c') (hc : Tidy c) (ht : Touches x c c') :
    Tidy c' := by
  refine hc.touches ht fun v _ st' e' hst' he' _ => ?_
  have hv := h v
  rw [Migration.inMemory_of_stateOf hst', Migration.archived_of_stateOf hst', he'] at hv
  exact hv rfl

/-- only worker `w` holds `x`, in memory -/
theorem settled_of_only {x : EntityName} {w : WorkerId} {c : Cluster} (h : ∀ v, c.Holds v x → v = w)
    (ha : (c.inMemory w x).isSome = true → c.archived w x = none) : Settled x c := by
  intro v hv
  obtain ⟨e, he⟩ := Option.isSome_iff_exists.mp hv
  have hvw : v = w := h v (Option.isSome_of_eq_some (Migration.copyOf_inMemory he))
  subst hvw
  exact ha hv

/-- **Handing over** an entity that is not archived as well, with no answer lost, leaves it at one worker at most -/
theorem handOver_unique {w : WorkerId} {ctx : Context} {ch : Choice} {x : EntityName} {e : Entity} {c : Cluster}
    {st : WorkerState} (hu : c.Unique) (hst : c.stateOf w = some st) (he : c.inMemory w x = some e)
    (ha : c.archived w x = none) (hans : ch.Answered) :
    (Migration.handOver w ctx ch x e c).1.Unique ∧ Settled x (Migration.handOver w ctx ch x e c).1 := by
  have hcopy : c.copyOf w x = some e := Migration.copyOf_inMemory he
  have hholds : c.Holds w x := Option.isSome_of_eq_some hcopy
  have hnone : ∀ v, v ≠ w → c.inMemory v x = none ∧ c.archived v x = none := fun v hv =>
    Migration.inMemory_none (Migration.copyOf_none_of_ne hu hholds hv)
  have hfinal : ∀ c' q, Touches x c c' → (∀ v, v ≠ q → c'.inMemory v x = none ∧ c'.archived v x = none) →
      ((c'.inMemory q x).isSome = true → c'.archived q x = none) → c'.Unique ∧ Settled x c' := by
    intro c' q ht hno hq
    have honly : ∀ v, c'.Holds v x → v = q := by
      intro v hv
      by_contra hne
      rw [Cluster.Holds, Cluster.copyOf_eq, (hno v hne).1, (hno v hne).2] at hv
      cases hv
    exact ⟨unique_of_touches ht hu honly, settled_of_only honly hq⟩
  obtain ⟨ht, hs⟩ := Migration.send_spec ctx ch x e hst
  -- once sent, the live copy of the sender goes and its archive stays
  have hremoved : ∀ c₁ q, Touches x c c₁ → (c₁.inMemory w x).isSome = true →
      (∀ v, v ≠ w → v ≠ q → c₁.inMemory v x = none ∧ c₁.archived v x = none) →
      (w ≠ q → c₁.archived w x = none) → (w ≠ q → (c₁.inMemory q x).isSome = true → c₁.archived q x = none) →
      (Migration.onManager w (WorkerState.removeEntity x) c₁).1.Unique ∧
        Settled x (Migration.onManager w (WorkerState.removeEntity x) c₁).1 := by
    intro c₁ q ht₁ hmem hno hw hq
    obtain ⟨e₁, he₁⟩ := Option.isSome_iff_exists.mp hmem
    obtain ⟨ht₂, -, hn, har, helse⟩ := Migration.onManager_remove he₁
    refine hfinal _ q (ht₁.trans ht₂) (fun v hv => ?_) fun hmq => ?_
    · by_cases hvw : v = w
      · subst hvw
        exact ⟨hn, har.trans (hw hv)⟩
      · rw [(helse v hvw).1, (helse v hvw).2]
        exact hno v hvw hv
    · by_cases hqw : q = w
      · rw [hqw, hn] at hmq
        cases hmq
      · rw [(helse q hqw).1] at hmq
        rw [(helse q hqw).2]
        exact hq (Ne.symm hqw) hmq
  unfold Migration.handOver
  generalize Migration.send w ctx ch x e c = r at ht hs
  obtain ⟨c₁, ans⟩ := r
  have hunsent : Migration.SameAt x c c₁ → c₁.Unique ∧ Settled x c₁ := by
    intro hsa
    refine hfinal c₁ w ht (fun v hv => ?_) fun _ => (hsa w).2.trans ha
    rw [(hsa v).1, (hsa v).2]
    exact hnone v hv
  rcases hs with ⟨hsame, hres⟩ | ⟨p, exec, direct, -, -, -, hran, sp, hsp, hans'⟩
  · have hsa := Migration.sameAt_of_stateOf (x := x) hsame
    cases ans with
    | error err => exact hunsent hsa
    | ok u =>
      refine hremoved c₁ w ht ?_ (fun v hv _ => ?_) (fun h => absurd rfl h) fun h => absurd rfl h
      · rw [(hsa w).1, he]
        rfl
      · rw [(hsa v).1, (hsa v).2]
        exact hnone v hv
  · simp only at hran hans'
    rcases Migration.ranAt_take hran hsp with ⟨hsa, err', herr'⟩ | ⟨hok', -, helse, e', -, hstored⟩
    · cases ans with
      | error err => exact hunsent hsa
      | ok u =>
        rcases hans' with ⟨-, hok⟩ | ⟨err, herr, -⟩
        · rw [herr'] at hok
          cases hok
        · cases herr
    · cases ans with
      | error err =>
        rcases hans' with ⟨hok, -⟩ | ⟨err₁, -, ⟨err', herr'⟩ | hlost⟩
        · cases hok
        · rw [hok'] at herr'
          cases herr'
        · exact absurd (.inr hans) hlost
      | ok u =>
        refine hremoved c₁ p ht ?_ (fun v hvw hvp => ?_) (fun hwp => (helse w hwp).2.trans ha) fun hwp hmp => ?_
        · by_cases hwp : w = p
          · subst hwp
            split_ifs at hstored
            · rw [hstored.2, he]
              rfl
            · exact Option.isSome_of_eq_some hstored.1
          · rw [(helse w hwp).1, he]
            rfl
        · rw [(helse v hvp).1, (helse v hvp).2]
          exact hnone v hvw
        · obtain ⟨hpm, hpa⟩ := hnone p (Ne.symm hwp)
          split_ifs at hstored
          · rw [hstored.2, hpm] at hmp
            cases hmp
          · exact hstored.2.trans hpa

/-- one round of the handler -/
theorem migrateEntity_unique {w : WorkerId} (ctx : Context) (x : EntityName) {ch : Choice} {c : Cluster}
    {st : WorkerState} (hu : c.Unique) (htidy : Tidy c) (hst : c.stateOf w = some st)
    (hk : w ∈ c.leader.workers.keys) (hans : ch.Answered) :
    let r := Migration.migrateEntity st.config.entityMigrationCooldownSecs w ctx x ch c
    r.1.Unique ∧ Tidy r.1 := by
  have ht := Migration.onManager_touches hst (WorkerState.getEntity_touches ch.now x)
  have hget := Migration.onManager_get ch.now x hst
  unfold Migration.migrateEntity
  generalize Migration.onManager w (WorkerState.getEntity ch.now x) c = r at ht hget
  obtain ⟨c₁, ans⟩ := r
  -- reading stamps the copy and changes nothing else
  have hread : c₁.Unique ∧ Tidy c₁ := by
    simp only at ht
    rcases hget with ⟨-, hsa, -⟩ | ⟨e, e', he, -, -, hlm, he', har, helse⟩
    · have hsame : ∀ v y, c₁.copyOf v y = c.copyOf v y := by
        intro v y
        by_cases hy : y = x
        · rw [hy, Migration.copyOf_congr (hsa v).1 (hsa v).2]
        · exact ht.copyOf hy v
      refine ⟨fun y v u hv hu' => hu y v u (by rwa [Cluster.Holds, ← hsame]) (by rwa [Cluster.Holds, ← hsame]), ?_⟩
      refine htidy.touches ht fun v hkv st' e' hst' he' hmov => ?_
      obtain ⟨st₀, hst₀, hts⟩ := ht.stateBack hst'
      have hm := (hsa v).1
      have ha := (hsa v).2
      rw [Migration.inMemory_of_stateOf hst', Migration.inMemory_of_stateOf hst₀] at hm
      rw [Migration.archived_of_stateOf hst', Migration.archived_of_stateOf hst₀] at ha
      rw [ha]
      refine htidy v hkv st₀ x e' hst₀ (hm ▸ he') ?_
      obtain ⟨now, hnow⟩ := hmov
      exact ⟨now, by rwa [← hts.config]⟩
    · simp only at he' har helse
      have hholds : c.Holds w x := Option.isSome_of_eq_some (Migration.copyOf_inMemory he)
      refine ⟨unique_of_touches (q := w) ht hu fun v hv => ?_, htidy.touches ht fun v hkv st' e₁ hst' he₁ hmov => ?_⟩
      · by_contra hne
        rw [Cluster.Holds, Migration.copyOf_congr (helse v hne).1 (helse v hne).2] at hv
        exact hne (hu x v w hv hholds)
      · obtain ⟨st₀, hst₀, hts⟩ := ht.stateBack hst'
        obtain ⟨now, hnow⟩ := hmov
        by_cases hvw : v = w
        · subst hvw
          rw [Migration.inMemory_of_stateOf hst₀] at he
          rw [Migration.inMemory_of_stateOf hst', he₁, Option.some.injEq] at he'
          rw [Migration.archived_of_stateOf hst', Migration.archived_of_stateOf hst₀] at har
          rw [har]
          refine htidy v hkv st₀ x e hst₀ he ⟨now, ?_⟩
          rw [he', hts.config] at hnow
          unfold Migration.coolingDown at hnow ⊢
          rwa [← hlm]
        · have hm := (helse v hvw).1
          have ha := (helse v hvw).2
          rw [Migration.inMemory_of_stateOf hst', Migration.inMemory_of_stateOf hst₀] at hm
          rw [Migration.archived_of_stateOf hst', Migration.archived_of_stateOf hst₀] at ha
          rw [ha]
          exact htidy v hkv st₀ x e₁ hst₀ (hm ▸ he₁) ⟨now, by rwa [← hts.config]⟩
  simp only at ht hget ⊢
  cases ans with
  | error err => exact hread
  | ok e₂ =>
    simp only
    split_ifs with hcool
    · exact hread
    · rcases hget with ⟨-, -, err, herr⟩ | ⟨e, e', -, hok, -, -, he', -⟩
      · cases herr
      · obtain rfl := Except.ok.inj hok
        obtain ⟨st₁, hst₁, hts⟩ := ht.state hst
        have hmov : Movable st₁ e₂ := ⟨ch.now, by rw [hts.config]; simpa using hcool⟩
        have hmem : st₁.inMemory x = some e₂ := (Migration.inMemory_of_stateOf hst₁ x).symm.trans he'
        have har : c₁.archived w x = none := by
          rw [Migration.archived_of_stateOf hst₁]
          exact hread.2 w (ht.leader ▸ hk) st₁ x e₂ hst₁ hmem hmov
        obtain ⟨huniq, hset⟩ := handOver_unique hread.1 hst₁ he' har hans
        exact ⟨huniq, hset.tidy hread.2 (Migration.handOver_touches ctx ch x e₂ hst₁)⟩

theorem migrateLoop_unique {w : WorkerId} {ctx : Context} (listed : List (EntityName × Choice)) {c : Cluster}
    {st : WorkerState} (hu : c.Unique) (htidy : Tidy c) (hst : c.stateOf w = some st)
    (hk : w ∈ c.leader.workers.keys) (hans : ∀ p ∈ listed, p.2.Answered) :
    let r := Migration.migrateLoop st.config.entityMigrationCooldownSecs w ctx listed c
    r.1.Unique ∧ Tidy r.1 ∧ r.1.leader = c.leader := by
  induction listed generalizing c st with
  | nil => exact ⟨hu, htidy, rfl⟩
  | cons p rest ih =>
    obtain ⟨x, ch⟩ := p
    obtain ⟨huniq, htidy₁⟩ := migrateEntity_unique ctx x hu htidy hst hk (hans (x, ch) List.mem_cons_self)
    have ht := Migration.migrateEntity_touches st.config.entityMigrationCooldownSecs ctx x ch hst
    unfold Migration.migrateLoop
    generalize Migration.migrateEntity st.config.entityMigrationCooldownSecs w ctx x ch c = r at huniq htidy₁ ht
    obtain ⟨c₁, ans⟩ := r
    cases ans with
    | error err => exact ⟨huniq, htidy₁, ht.leader⟩
    | ok u =>
      obtain ⟨st₁, hst₁, hts⟩ := ht.state hst
      have hl : c₁.leader = c.leader := ht.leader
      obtain ⟨h₁, h₂, h₃⟩ := ih huniq htidy₁ hst₁ (by rwa [hl]) fun p hp => hans p (List.mem_cons_of_mem _ hp)
      rw [hts.config] at h₁ h₂ h₃
      exact ⟨h₁, h₂, h₃.trans hl⟩

theorem takeTurn_unique (ctx : Context) {turn : Turn} {c : Cluster} (hu : c.Unique) (htidy : Tidy c)
    (hans : ∀ p ∈ turn.listed, p.2.Answered) :
    (Leader.takeTurn ctx turn c).1.Unique ∧ Tidy (Leader.takeTurn ctx turn c).1 := by
  unfold Leader.takeTurn
  cases hr : c.leader.workers.lookup turn.worker with
  | none => exact ⟨hu, htidy⟩
  | some exec =>
    have hmig : (Leader.migrateAt (Cluster.streamOf exec) turn (Cluster.fromLeader exec ctx) c).1.Unique ∧
        Tidy (Leader.migrateAt (Cluster.streamOf exec) turn (Cluster.fromLeader exec ctx) c).1 := by
      unfold Leader.migrateAt
      cases hn : c.workers.lookup turn.worker with
      | none => exact ⟨hu, htidy⟩
      | some node =>
        -- the table of seen calls is no part of what is held
        have hsame : ∀ seen v, ({ c with
            workers := c.workers.insert turn.worker { node with seen } } : Cluster).stateOf v = c.stateOf v := by
          intro seen v
          rw [Cluster.stateOf_insert]
          split_ifs with hv
          · rw [hv, Cluster.stateOf, hn]
            rfl
          · rfl
        have hseen : ∀ seen, ({ c with workers := c.workers.insert turn.worker { node with seen } } : Cluster).Unique ∧
            Tidy { c with workers := c.workers.insert turn.worker { node with seen } } := by
          intro seen
          refine ⟨(Leader.shrinks_of_same (hsame seen)).unique hu, fun v hk st x e hst => ?_⟩
          rw [hsame seen v] at hst
          exact htidy v hk st x e hst
        simp only
        split
        · obtain ⟨huniq, htidy'⟩ := hseen (Inbox.receive turn.worker turn.micros node.seen (Cluster.streamOf exec)
            (Cluster.fromLeader exec ctx)).1
          unfold Migration.migrateEntities
          split
          · rename_i st hst
            split_ifs
            · obtain ⟨h₁, h₂, -⟩ := migrateLoop_unique turn.listed huniq htidy' hst (FnvHashMap.mem_keys hr) hans
              exact ⟨h₁, h₂⟩
            · exact ⟨huniq, htidy'⟩
          · exact ⟨huniq, htidy'⟩
        · exact hseen _
        · exact hseen _
    rcases exec.call_cases turn.fate .otherOf
      (Leader.migrateAt (Cluster.streamOf exec) turn (Cluster.fromLeader exec ctx)) c with ⟨-, err, h⟩ | ⟨h, -⟩
    · simp only [h]
      exact ⟨hu, htidy⟩
    · simp only [h]
      exact hmig

theorem reorganizeEntities_unique {ctx : Context} (turns : List Turn) {c : Cluster} (hu : c.Unique) (htidy : Tidy c)
    (hans : ∀ turn ∈ turns, ∀ p ∈ turn.listed, p.2.Answered) : (Leader.reorganizeEntities ctx turns c).1.Unique := by
  induction turns generalizing c with
  | nil => exact hu
  | cons turn rest ih =>
    obtain ⟨huniq, htidy₁⟩ := takeTurn_unique ctx hu htidy (hans turn List.mem_cons_self)
    unfold Leader.reorganizeEntities
    generalize Leader.takeTurn ctx turn c = r at huniq htidy₁
    obtain ⟨c₁, ans⟩ := r
    cases ans with
    | error err => exact huniq
    | ok u => exact ih huniq htidy₁ fun turn' h => hans turn' (List.mem_cons_of_mem _ h)

/-! ## Runs -/

theorem step_unique (c : Cluster) (op : Op) (hu : c.Unique) (hf : Fresh c op) : (step c op).Unique := by
  cases op with
  | spawnEntity name prefab rng env => exact spawnEntity_unique hu hf
  | removeEntity name visit =>
    simp only [step]
    split_ifs
    · exact (Leader.removeLoop_shrinks name visit c).unique hu
    · exact hu
  | initialize_ env =>
    simp only [step]
    split_ifs with h
    · exact initialize_unique hu hf h.2
    · exact hu
  | takeEntity ctx ch name entity => exact takeEntity_unique hu hf
  | reorganizeEntities ctx turns =>
    simp only [step]
    split_ifs
    · exact reorganizeEntities_unique turns hu hf.1 hf.2
    · exact hu

/-- **Names stay unique.** From a state in which no name is held twice, in every run of leader requests that all meet
the condition no name is held twice. -/
theorem names_unique (c : Cluster) (hu : c.Unique) (ops : List Op) (hok : Along step Fresh c ops) :
    (run step c ops).Unique :=
  Core.run_inv step_unique hu hok

/-! ## Two runs -/

/-- two workers registered with the leader, with nothing in them -/
def team : Cluster where
  leader := ⟨some ⟨[], [], [], []⟩, Finmap.insert 0 .local (Finmap.singleton 1 .local)⟩
  workers :=
    Finmap.insert 0 (Migration.node ∅ (.connected .local) ∅)
      (Finmap.singleton 1 (Migration.node ∅ (.connected .local) ∅))

/-- nothing fails -/
def sure (uuid : ℕ) : Env where
  fate := .delivered
  micros := 0
  uuid := uuid
  load := fun _ => .ok ()
  opens := .ok ()
  restart := fun st => ((st.part.map Partition.behaviors).getD ∅, .ok ())

theorem freeElsewhere_of_keys {c : Cluster} {r : WorkerId} {x : EntityName}
    (h : ∀ v ∈ c.workers.keys, v ≠ r → ¬ c.Holds v x) : FreeElsewhere c r x := by
  intro v hvr hv
  obtain ⟨e, he⟩ := Option.isSome_iff_exists.mp hv
  exact h v (Cluster.mem_keys_of_copyOf he) hvr hv

/-- the ball is spawned on the first worker, removed, and spawned on the second -/
def spawnAgain : List Op :=
  [.spawnEntity "ball" none (.prefer 0) (sure 1), .removeEntity "ball" [(0, sure 2), (1, sure 3)],
    .spawnEntity "ball" none (.prefer 1) (sure 4)]

theorem team_unique : team.Unique := by
  intro x v w hv
  obtain ⟨e, he⟩ := Option.isSome_iff_exists.mp hv
  have hk : v ∈ ({0, 1} : Finset WorkerId) := Cluster.mem_keys_of_copyOf he
  simp only [Finset.mem_insert, Finset.mem_singleton] at hk
  rcases hk with rfl | rfl <;>
    simp [Cluster.copyOf, Cluster.stateOf, team, Migration.node, WorkerState.copyOf, WorkerState.inMemory,
      WorkerState.archived, Partition.archived, Partition.new, PartConfig.default] at he

theorem spawnAgain_unique : (run step team spawnAgain).Unique := by
  refine names_unique team team_unique spawnAgain ⟨?_, trivial, ?_, trivial⟩
  · intro r exec st hr _ _ _ _
    obtain rfl : 0 = r := Option.some.inj ((Core.Rng.prefer_choose (by decide)).symm.trans hr)
    exact freeElsewhere_of_keys (by decide)
  · intro r exec st hr _ _ _ _
    obtain rfl : 1 = r := Option.some.inj ((Core.Rng.prefer_choose (by decide)).symm.trans hr)
    exact freeElsewhere_of_keys (by decide)

/-- **One name on two workers.** The same name is spawned twice, and the second random choice differs. -/
theorem same_name_spawned_twice :
    ¬ ∀ (c : Cluster) (ops : List Op), c.Unique → (run step c ops).Unique := by
  intro h
  have hu := h team [.spawnEntity "ball" none (.prefer 0) (sure 1), .spawnEntity "ball" none (.prefer 1) (sure 2)]
    team_unique
  exact absurd (hu "ball" 0 1 (by decide) (by decide)) (by decide)

end BigWorlds.Names
