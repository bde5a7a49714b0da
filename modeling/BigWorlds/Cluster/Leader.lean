/-
The requests to the leader that place entities (`leader/mod.rs`, with `get_random_worker` and `SetModel` of
`leader/manager.rs`): spawning, removing, initializing, passing an entity on, reorganizing. Each is handled to its end;
what it asks of the workers it asks one worker at a time, in the iteration order of a hash map, which is an argument.

- `RequestSpec`, `request_spec`: what one request to a worker can do;
- `onEach_rel`: what a request to every worker does to their states;
- `Entries c c' r x`: after the call the cluster holds nothing new, except entity `x` at worker `r`.
-/
import BigWorlds.Cluster.Migration

namespace BigWorlds.Leader

open BigWorlds.Core (Exec Fate Rng)
open Cluster (Accepts RanAt Handler)

/-! ## Model -/

/-- what the environment decides about one request to a worker -/
structure Env where
  fate : Fate Error
  micros : UInt64
  /-- the identifier drawn for the call -/
  uuid : ℕ
  load : Loader
  opens : Except Error Unit
  restart : WorkerState.Restart

/-- the context of `Signal::from` -/
def Env.ctx (env : Env) : Context := .new (.v4 env.uuid) env.micros .unknown

/-- a request to a registered worker -/
def request (env : Env) (r : WorkerId) (handler : Handler Unit) (c : Cluster) : Cluster × Except Error Unit :=
  match c.leader.workers.lookup r with
  | some exec => c.execute exec env.fate env.micros (Cluster.fromLeader exec env.ctx) r handler
  | none => (c, .error (.other "worker is not registered"))

/-- the same request to one worker after another, up to the first error -/
def onEach (handler : Env → Handler Unit) : List (WorkerId × Env) → Cluster → Cluster × Except Error Unit
  | [], c => (c, .ok ())
  | (r, env) :: rest, c =>
    match request env r (handler env) c with
    | (c, .ok ()) => onEach handler rest c
    | (c, .error e) => (c, .error e)

def spawnEntity (name : EntityName) (prefab : Option PrefabName) (rng : Rng WorkerId) (env : Env) (c : Cluster) :
    Cluster × Except Error Unit :=
  match rng.choose c.leader.workers.keys with
  | some r => request env r (WorkerState.spawnEntity env.load name prefab) c
  | none => (c, .error (.other "leader: manager: failed selecting random worker"))

/-- the first worker that answers `Ok` ends the loop; errors are passed over -/
def removeLoop (name : EntityName) : List (WorkerId × Env) → Cluster → Cluster
  | [], c => c
  | (r, env) :: rest, c =>
    match request env r (WorkerState.removeEntity name) c with
    | (c, .ok ()) => c
    | (c, .error _) => removeLoop name rest c

def removeEntity (name : EntityName) (visit : List (WorkerId × Env)) (c : Cluster) : Cluster × Except Error Unit :=
  (removeLoop name visit c, .ok ())

/-- the model's entities, each on a random worker; with no worker the handler panics and the caller's channel closes -/
def spawnEntities (place : ℕ → Rng WorkerId × Env) : ℕ → List EntityModel → Cluster → Cluster × Except Error Unit
  | _, [], c => (c, .ok ())
  | i, e :: es, c =>
    match (place i).1.choose c.leader.workers.keys with
    | none => (c, .error (.tokioOneshotRecvError "channel closed"))
    | some r =>
      match request (place i).2 r (WorkerState.spawnEntity (place i).2.load e.name e.prefab) c with
      | (c, .ok ()) => spawnEntities place (i + 1) es c
      | (c, .error err) => (c, .error err)

/-- `SpawnSingletonBehavior` at a worker does nothing yet -/
def spawnSingletonBehavior : Handler Unit := fun st => (st, .ok ())

def spawnSingletons (place : ℕ → Rng WorkerId × Env) : ℕ → List BehaviorModel → Cluster → Cluster × Except Error Unit
  | _, [], c => (c, .ok ())
  | i, b :: bs, c =>
    if InstancingTarget.globalSingleton ∈ b.targets then
      match (place i).1.choose c.leader.workers.keys with
      | none => (c, .error (.other "leader: manager: failed selecting random worker"))
      | some r =>
        match request (place i).2 r spawnSingletonBehavior c with
        | (c, .ok ()) => spawnSingletons place (i + 1) bs c
        | (c, .error err) => (c, .error err)
    else spawnSingletons place (i + 1) bs c

/-- how the environment lets one `Initialize` run: the order in which the workers get the model and are initialized,
and where entities and singleton behaviors are placed -/
structure InitEnv where
  models : List (WorkerId × Env)
  inits : List (WorkerId × Env)
  place : ℕ → Rng WorkerId × Env
  singletons : ℕ → Rng WorkerId × Env

def initialize_ (env : InitEnv) (c : Cluster) : Cluster × Except Error Unit :=
  match c.leader.model with
  | none => (c, .error (.leaderNotInitialized "model not available"))
  | some model =>
    match onEach (fun e => WorkerState.replaceModel e.restart model) env.models c with
    | (c, .error err) => (c, .error err)
    | (c, .ok ()) =>
      match onEach (fun e => WorkerState.initPartition e.load e.opens) env.inits c with
      | (c, .error err) => (c, .error err)
      | (c, .ok ()) =>
        match spawnEntities env.place 0 model.entities c with
        | (c, .error err) => (c, .error err)
        | (c, .ok ()) => spawnSingletons env.singletons 0 model.behaviors c

/-- one worker's turn in `ReorganizeEntities` -/
structure Turn where
  worker : WorkerId
  fate : Fate Error
  micros : UInt64
  /-- what `GetEntities` answers there, with the choices for each entity -/
  listed : List (EntityName × Migration.Choice)

/-- `MigrateEntities` arrives at the main loop of the worker -/
def migrateAt (source : Inbox.Stream) (turn : Turn) (ctx : Context) (c : Cluster) : Cluster × Except Error Unit :=
  match c.workers.lookup turn.worker with
  | none => (c, .error (.other "local executor failed sending, receiver dropped"))
  | some node =>
    let seen := (Inbox.receive turn.worker turn.micros node.seen source ctx).1
    let c' : Cluster := { c with workers := c.workers.insert turn.worker { node with seen } }
    match (Inbox.receive turn.worker turn.micros node.seen source ctx).2 with
    | .handled ctx' => Migration.migrateEntities turn.worker ctx' turn.listed c'
    | .rejected e => (c', .error e)
    | .dropped => (c', .error (.tokioOneshotRecvError "channel closed"))

def takeTurn (ctx : Context) (turn : Turn) (c : Cluster) : Cluster × Except Error Unit :=
  match c.leader.workers.lookup turn.worker with
  | some exec =>
    exec.call turn.fate .otherOf (migrateAt (Cluster.streamOf exec) turn (Cluster.fromLeader exec ctx)) c
  | none => (c, .error (.other "worker is not registered"))

def reorganizeEntities (ctx : Context) : List Turn → Cluster → Cluster × Except Error Unit
  | [], c => (c, .ok ())
  | turn :: rest, c =>
    match takeTurn ctx turn c with
    | (c, .ok ()) => reorganizeEntities ctx rest c
    | (c, .error e) => (c, .error e)

/-! ## One request to a worker -/

/-- nothing changes and the caller gets an error, or the handler ran at the worker -/
structure RequestSpec (r : WorkerId) (ctx : Context) (handler : Handler Unit) (c : Cluster)
    (res : Cluster × Except Error Unit) : Prop where
  leader : res.1.leader = c.leader
  ran : ((∀ v, res.1.stateOf v = c.stateOf v) ∧ ∃ err, res.2 = .error err) ∨
    ((∃ exec, c.leader.workers.lookup r = some exec ∧ Accepts c r exec ctx) ∧ RanAt r handler c res.1 ∧
      (res.2 = .ok () → ∃ st, c.stateOf r = some st ∧ (handler st).2 = .ok ()))

theorem request_spec (env : Env) (r : WorkerId) (handler : Handler Unit) (c : Cluster) :
    RequestSpec r env.ctx handler c (request env r handler c) := by
  unfold request
  cases hr : c.leader.workers.lookup r with
  | none => exact ⟨rfl, .inl ⟨fun _ => rfl, _, rfl⟩⟩
  | some exec =>
    obtain ⟨hl, -, hsame | ⟨hacc, hran, st, hst, hans⟩⟩ :=
      Cluster.execute_spec exec env.fate env.micros (Cluster.fromLeader exec env.ctx) r handler c
    · exact ⟨hl, .inl hsame⟩
    · refine ⟨hl, .inr ⟨⟨exec, hr, (Cluster.accepts_fromLeader c r exec exec env.ctx).mp hacc⟩, hran, fun hok => ?_⟩⟩
      rcases hans with ⟨a, -, ha⟩ | ⟨err, herr, -⟩
      · exact ⟨st, hst, ha⟩
      · simp only at hok
        rw [hok] at herr
        cases herr

/-! ## Whether a request arrives -/

/-- the request reaches the manager of worker `r` -/
def Reaches (c : Cluster) (r : WorkerId) (env : Env) : Prop :=
  ∃ exec, c.leader.workers.lookup r = some exec ∧ Accepts c r exec env.ctx ∧ exec.Arrives env.fate

/-- an answer of worker `r` reaches the leader -/
def Hears (c : Cluster) (r : WorkerId) (env : Env) : Prop :=
  ∀ exec, c.leader.workers.lookup r = some exec → exec.Answered env.fate

/-- a request that does not arrive: nothing changes and the leader gets an error -/
theorem request_lost {env : Env} {r : WorkerId} {c : Cluster} (h : ¬ Reaches c r env) (handler : Handler Unit) :
    (∀ v, (request env r handler c).1.stateOf v = c.stateOf v) ∧ ∃ err, (request env r handler c).2 = .error err := by
  unfold request
  cases hr : c.leader.workers.lookup r with
  | none => exact ⟨fun _ => rfl, _, rfl⟩
  | some exec =>
    simp only [Cluster.execute]
    by_cases harr : exec.Arrives env.fate
    · obtain ⟨h1, h2⟩ := Exec.call_arrived harr .otherOf
        (Cluster.handleAt r (Cluster.streamOf exec) env.micros (Cluster.fromLeader exec env.ctx) handler) c
      obtain ⟨-, -, ⟨hsame, ⟨err, herr⟩, -⟩ | ⟨hacc, -⟩⟩ :=
        Cluster.handleAt_spec r exec env.micros (Cluster.fromLeader exec env.ctx) handler c
      · refine ⟨fun v => by rw [h1, hsame v], ?_⟩
        cases hans : (exec.call env.fate .otherOf (Cluster.handleAt r (Cluster.streamOf exec) env.micros
          (Cluster.fromLeader exec env.ctx) handler) c).2 with
        | error e => exact ⟨e, rfl⟩
        | ok u =>
          have hok := ((h2 u).mp hans).2
          rw [herr] at hok
          cases hok
      · exact absurd ⟨exec, hr, (Cluster.accepts_fromLeader c r exec exec env.ctx).mp hacc, harr⟩ h
    · obtain ⟨err, herr⟩ := Exec.call_lost harr .otherOf
        (Cluster.handleAt r (Cluster.streamOf exec) env.micros (Cluster.fromLeader exec env.ctx) handler) c
      rw [herr]
      exact ⟨fun _ => rfl, err, rfl⟩

/-- a request that arrives runs the handler at the worker, and the leader has its success unless the answer is lost -/
theorem request_reached {env : Env} {r : WorkerId} {c : Cluster} (h : Reaches c r env) (handler : Handler Unit) :
    RanAt r handler c (request env r handler c).1 ∧ ∃ st, c.stateOf r = some st ∧
      ((request env r handler c).2 = .ok () ↔ Hears c r env ∧ (handler st).2 = .ok ()) := by
  obtain ⟨exec, hr, hacc, harr⟩ := h
  have hacc' := (Cluster.accepts_fromLeader c r exec exec env.ctx).mpr hacc
  obtain ⟨h1, h2⟩ := Exec.call_arrived harr .otherOf
    (Cluster.handleAt r (Cluster.streamOf exec) env.micros (Cluster.fromLeader exec env.ctx) handler) c
  have hhears : Hears c r env ↔ exec.Answered env.fate := by
    constructor
    · exact fun hh => hh exec hr
    · intro ha exec' hr'
      rw [hr, Option.some.injEq] at hr'
      exact hr' ▸ ha
  obtain ⟨-, -, ⟨-, -, hn⟩ | ⟨-, hran, st, hst, hans⟩⟩ :=
    Cluster.handleAt_spec r exec env.micros (Cluster.fromLeader exec env.ctx) handler c
  · exact absurd hacc' hn
  · simp only [request, hr, Cluster.execute]
    refine ⟨?_, st, hst, ?_⟩
    · rw [h1]
      exact hran
    · rw [h2, hans, hhears]

/-- the other workers keep their state and their table of calls -/
theorem request_elsewhere (env : Env) {r v : WorkerId} (hv : v ≠ r) (handler : Handler Unit) (c : Cluster) :
    (request env r handler c).1.workers.lookup v = c.workers.lookup v := by
  unfold request
  cases c.leader.workers.lookup r with
  | none => rfl
  | some exec =>
    simp only [Cluster.execute]
    rcases Exec.call_cases exec env.fate .otherOf
      (Cluster.handleAt r (Cluster.streamOf exec) env.micros (Cluster.fromLeader exec env.ctx) handler) c with
      ⟨-, e, he⟩ | ⟨h1, -⟩
    · rw [he]
    · rw [h1, Cluster.handleAt_elsewhere _ _ _ hv]

/-- the two clusters agree about worker `v` and about the leader -/
structure SameAt (v : WorkerId) (c c' : Cluster) : Prop where
  leader : c'.leader = c.leader
  node : c'.workers.lookup v = c.workers.lookup v

theorem SameAt.stateOf {v : WorkerId} {c c' : Cluster} (h : SameAt v c c') : c'.stateOf v = c.stateOf v := by
  simp only [Cluster.stateOf, h.node]

theorem SameAt.holds {v : WorkerId} {c c' : Cluster} (h : SameAt v c c') (x : EntityName) :
    c'.Holds v x ↔ c.Holds v x := by
  simp only [Cluster.Holds, Cluster.copyOf, h.stateOf]

theorem SameAt.reaches {v : WorkerId} {c c' : Cluster} (h : SameAt v c c') (env : Env) :
    Reaches c' v env ↔ Reaches c v env := by
  simp only [Reaches, Accepts, h.leader, h.node]

theorem SameAt.hears {v : WorkerId} {c c' : Cluster} (h : SameAt v c c') (env : Env) :
    Hears c' v env ↔ Hears c v env := by
  simp only [Hears, h.leader]

theorem request_sameAt (env : Env) {r v : WorkerId} (hv : v ≠ r) (handler : Handler Unit) (c : Cluster) :
    SameAt v c (request env r handler c).1 :=
  ⟨(request_spec env r handler c).leader, request_elsewhere env hv handler c⟩

/-! ## Asking one worker after another -/

/-- the loop over the workers comes to `p`: none of those before ends it -/
def ComesTo (Ends : WorkerId × Env → Prop) (visit : List (WorkerId × Env)) (p : WorkerId × Env) : Prop :=
  ∃ pre post, visit = pre ++ p :: post ∧ ∀ q ∈ pre, ¬ Ends q

theorem comesTo_nil (Ends : WorkerId × Env → Prop) (p : WorkerId × Env) : ¬ ComesTo Ends [] p := by
  rintro ⟨pre, post, h, -⟩
  cases pre <;> cases h

theorem comesTo_cons (Ends : WorkerId × Env → Prop) (q : WorkerId × Env) (rest : List (WorkerId × Env))
    (p : WorkerId × Env) : ComesTo Ends (q :: rest) p ↔ p = q ∨ (¬ Ends q ∧ ComesTo Ends rest p) := by
  constructor
  · rintro ⟨pre, post, h, hpre⟩
    cases pre with
    | nil => exact .inl (List.cons.inj h).1.symm
    | cons q' pre =>
      obtain ⟨rfl, rfl⟩ := List.cons.inj h
      exact .inr ⟨hpre q List.mem_cons_self, pre, post, rfl, fun r hr => hpre r (List.mem_cons_of_mem _ hr)⟩
  · rintro (rfl | ⟨hq, pre, post, rfl, hpre⟩)
    · exact ⟨[], rest, rfl, fun _ h => absurd h List.not_mem_nil⟩
    · exact ⟨q :: pre, post, rfl, List.forall_mem_cons.mpr ⟨hq, hpre⟩⟩

theorem ComesTo.mem {Ends : WorkerId × Env → Prop} {visit : List (WorkerId × Env)} {p : WorkerId × Env}
    (h : ComesTo Ends visit p) : p ∈ visit := by
  obtain ⟨pre, post, rfl, -⟩ := h
  simp

theorem comesTo_congr {Ends Ends' : WorkerId × Env → Prop} {visit : List (WorkerId × Env)}
    (h : ∀ q ∈ visit, (Ends' q ↔ Ends q)) (p : WorkerId × Env) : ComesTo Ends' visit p ↔ ComesTo Ends visit p := by
  constructor
  · rintro ⟨pre, post, rfl, hpre⟩
    exact ⟨pre, post, rfl, fun q hq he => hpre q hq ((h q (List.mem_append_left _ hq)).mpr he)⟩
  · rintro ⟨pre, post, rfl, hpre⟩
    exact ⟨pre, post, rfl, fun q hq he => hpre q hq ((h q (List.mem_append_left _ hq)).mp he)⟩

/-- the worker gets the request, its handler succeeds, and the leader hears of it -/
def Succeeds (handler : Env → Handler Unit) (c : Cluster) (p : WorkerId × Env) : Prop :=
  Reaches c p.1 p.2 ∧ Hears c p.1 p.2 ∧ ∃ st, c.stateOf p.1 = some st ∧ (handler p.2 st).2 = .ok ()

theorem SameAt.succeeds {p : WorkerId × Env} {c c' : Cluster} (h : SameAt p.1 c c') (handler : Env → Handler Unit) :
    Succeeds handler c' p ↔ Succeeds handler c p := by
  simp only [Succeeds, h.reaches, h.hears, h.stateOf]

theorem request_ok_iff (handler : Env → Handler Unit) (c : Cluster) (p : WorkerId × Env) :
    (request p.2 p.1 (handler p.2) c).2 = .ok () ↔ Succeeds handler c p := by
  by_cases hr : Reaches c p.1 p.2
  · obtain ⟨-, st, hst, hok⟩ := request_reached hr (handler p.2)
    rw [hok]
    simp [Succeeds, hr, hst]
  · obtain ⟨-, err, herr⟩ := request_lost hr (handler p.2)
    simp [herr, Succeeds, hr]

/-- the state of one worker after a request to it -/
theorem request_here (handler : Env → Handler Unit) {c : Cluster} {p : WorkerId × Env} {st : WorkerState}
    (hst : c.stateOf p.1 = some st) :
    (Reaches c p.1 p.2 ∧ (request p.2 p.1 (handler p.2) c).1.stateOf p.1 = some (handler p.2 st).1) ∨
      (¬ Reaches c p.1 p.2 ∧ (request p.2 p.1 (handler p.2) c).1.stateOf p.1 = some st) := by
  by_cases hr : Reaches c p.1 p.2
  · obtain ⟨hran, -⟩ := request_reached hr (handler p.2)
    obtain ⟨st', hst', hnew⟩ := hran.here
    obtain rfl := Option.some.inj (hst'.symm.trans hst)
    exact .inl ⟨hr, hnew⟩
  · obtain ⟨hsame, -⟩ := request_lost hr (handler p.2)
    exact .inr ⟨hr, (hsame p.1).trans hst⟩

/-- **What a request to every worker does.** When no worker is asked twice, the handler runs exactly at the workers
the loop comes to and reaches, and the leader succeeds exactly when every worker does. -/
theorem onEach_spec (handler : Env → Handler Unit) {visit : List (WorkerId × Env)}
    (hnd : (visit.map Prod.fst).Nodup) (c : Cluster) :
    (∀ v st, c.stateOf v = some st →
      (∃ env, ComesTo (fun p => ¬ Succeeds handler c p) visit (v, env) ∧ Reaches c v env ∧
          (onEach handler visit c).1.stateOf v = some (handler env st).1) ∨
        ((∀ env, ComesTo (fun p => ¬ Succeeds handler c p) visit (v, env) → ¬ Reaches c v env) ∧
          (onEach handler visit c).1.stateOf v = some st)) ∧
      ((onEach handler visit c).2 = .ok () ↔ ∀ p ∈ visit, Succeeds handler c p) := by
  induction visit generalizing c with
  | nil =>
    refine ⟨fun v st hst => .inr ⟨fun env h => absurd h (comesTo_nil _ _), hst⟩, ?_⟩
    simp [onEach]
  | cons p rest ih =>
    obtain ⟨hp, hrest⟩ := List.nodup_cons.mp hnd
    have hok := request_ok_iff handler c p
    have hsame : ∀ v, v ≠ p.1 → SameAt v c (request p.2 p.1 (handler p.2) c).1 :=
      fun v hv => request_sameAt p.2 hv (handler p.2) c
    have hne : ∀ q ∈ rest, q.1 ≠ p.1 := fun q hq he => hp (he ▸ List.mem_map_of_mem hq)
    have hcomes : ∀ v env, ComesTo (fun q => ¬ Succeeds handler c q) (p :: rest) (v, env) ↔
        (v, env) = p ∨ (Succeeds handler c p ∧ ComesTo (fun q => ¬ Succeeds handler c q) rest (v, env)) := by
      intro v env
      rw [comesTo_cons, not_not]
    have hhere := fun st (hst : c.stateOf p.1 = some st) => request_here handler hst
    unfold onEach
    generalize request p.2 p.1 (handler p.2) c = res at hok hsame hhere
    obtain ⟨c₁, ans⟩ := res
    cases ans with
    | error err =>
      have hfails : ¬ Succeeds handler c p := fun hs => by cases hok.mpr hs
      refine ⟨fun v st hst => ?_, iff_of_false (by simp) fun hall => hfails (hall p List.mem_cons_self)⟩
      simp only [hcomes, hfails, false_and, or_false]
      by_cases hv : v = p.1
      · subst hv
        rcases hhere st hst with ⟨hr, hnew⟩ | ⟨hr, hold⟩
        · exact .inl ⟨p.2, rfl, hr, hnew⟩
        · refine .inr ⟨fun env he => ?_, hold⟩
          obtain rfl : env = p.2 := congrArg Prod.snd he
          exact hr
      · refine .inr ⟨?_, by rw [(hsame v hv).stateOf, hst]⟩
        rintro env rfl
        exact absurd rfl hv
    | ok u =>
      have hs : Succeeds handler c p := hok.mp rfl
      obtain ⟨ih1, ih2⟩ := ih hrest c₁
      have hcongr : ∀ q ∈ rest, (Succeeds handler c₁ q ↔ Succeeds handler c q) :=
        fun q hq => (hsame q.1 (hne q hq)).succeeds handler
      have hrest' : ∀ q, ComesTo (fun q => ¬ Succeeds handler c₁ q) rest q ↔
          ComesTo (fun q => ¬ Succeeds handler c q) rest q := by
        refine fun q => comesTo_congr (fun q' hq' => ?_) q
        rw [hcongr q' hq']
      constructor
      · intro v st hst
        simp only [hcomes, hs, true_and]
        by_cases hv : v = p.1
        · -- the worker itself is not asked again: what the request leaves there stays
          subst hv
          have hnever : ∀ env, (p.1, env) ∉ rest := fun env h => hne _ h rfl
          have hstays : ∀ st₁, c₁.stateOf p.1 = some st₁ → (onEach handler rest c₁).1.stateOf p.1 = some st₁ := by
            intro st₁ hst₁
            rcases ih1 p.1 st₁ hst₁ with ⟨env, hc, -⟩ | ⟨-, h⟩
            · exact absurd hc.mem (hnever env)
            · exact h
          rcases hhere st hst with ⟨hr, hnew⟩ | ⟨hr, hold⟩
          · exact .inl ⟨p.2, .inl rfl, hr, hstays _ hnew⟩
          · refine .inr ⟨?_, hstays _ hold⟩
            rintro env (he | hc)
            · obtain rfl : env = p.2 := congrArg Prod.snd he
              exact hr
            · exact absurd hc.mem (hnever env)
        · have hsv := hsame v hv
          rcases ih1 v st (by rw [hsv.stateOf, hst]) with ⟨env, hc, hr, hnew⟩ | ⟨hno, hold⟩
          · exact .inl ⟨env, .inr ((hrest' _).mp hc), (hsv.reaches env).mp hr, hnew⟩
          · refine .inr ⟨?_, hold⟩
            rintro env (rfl | hc)
            · exact absurd rfl hv
            · exact fun hr => hno env ((hrest' _).mpr hc) ((hsv.reaches env).mpr hr)
      · rw [ih2, List.forall_mem_cons]
        exact ⟨fun h => ⟨hs, fun q hq => (hcongr q hq).mp (h q hq)⟩, fun h q hq => (hcongr q hq).mpr (h.2 q hq)⟩

/-- where the leader succeeds, the handler ran at every worker and succeeded there -/
theorem onEach_ok {handler : Env → Handler Unit} {visit : List (WorkerId × Env)} {c : Cluster}
    (hnd : (visit.map Prod.fst).Nodup) (hok : (onEach handler visit c).2 = .ok ()) {p : WorkerId × Env}
    (hp : p ∈ visit) :
    ∃ st, c.stateOf p.1 = some st ∧ (handler p.2 st).2 = .ok () ∧
      (onEach handler visit c).1.stateOf p.1 = some (handler p.2 st).1 := by
  obtain ⟨hstate, hall⟩ := onEach_spec handler hnd c
  have hsucc := hall.mp hok
  obtain ⟨hr, -, st, hst, hans⟩ := hsucc p hp
  refine ⟨st, hst, hans, ?_⟩
  rcases hstate p.1 st hst with ⟨env, hc, -, hnew⟩ | ⟨hno, -⟩
  · have hsame := List.inj_on_of_nodup_map hnd hc.mem hp rfl
    obtain rfl : env = p.2 := congrArg Prod.snd hsame
    exact hnew
  · obtain ⟨pre, post, rfl⟩ := List.append_of_mem hp
    refine absurd hr (hno p.2 ⟨pre, post, rfl, fun q hq hn => hn ?_⟩)
    exact hsucc q (List.mem_append_left _ hq)

/-! ## What requests do to every worker -/

/-- states related worker by worker -/
def StateRel (R : WorkerState → WorkerState → Prop) (c c' : Cluster) : Prop :=
  ∀ v, Option.Rel R (c.stateOf v) (c'.stateOf v)

theorem StateRel.refl {R : WorkerState → WorkerState → Prop} (hR : ∀ st, R st st) (c : Cluster) : StateRel R c c := by
  intro v
  cases c.stateOf v with
  | none => exact .none
  | some st => exact .some (hR st)

theorem StateRel.trans {R : WorkerState → WorkerState → Prop} (hR : ∀ s t u, R s t → R t u → R s u)
    {c₁ c₂ c₃ : Cluster} (h₁ : StateRel R c₁ c₂) (h₂ : StateRel R c₂ c₃) : StateRel R c₁ c₃ := by
  intro v
  have hv₁ := h₁ v
  have hv₂ := h₂ v
  generalize c₁.stateOf v = s₁ at hv₁
  generalize c₂.stateOf v = s₂ at hv₁ hv₂
  generalize c₃.stateOf v = s₃ at hv₂
  cases hv₁ with
  | none => exact hv₂
  | some h =>
    cases hv₂ with
    | some h' => exact .some (hR _ _ _ h h')

/-- a worker that is there afterwards was there before -/
theorem StateRel.back {R : WorkerState → WorkerState → Prop} {c c' : Cluster} (h : StateRel R c c') {v : WorkerId}
    {st' : WorkerState} (hst' : c'.stateOf v = some st') : ∃ st, c.stateOf v = some st ∧ R st st' := by
  have hv := h v
  rw [hst'] at hv
  cases hst : c.stateOf v with
  | none =>
    rw [hst] at hv
    cases hv
  | some st =>
    rw [hst] at hv
    cases hv with
    | some hr => exact ⟨st, rfl, hr⟩

theorem RequestSpec.rel {R : WorkerState → WorkerState → Prop} (hR : ∀ st, R st st) {r : WorkerId} {ctx : Context}
    {handler : Handler Unit} {c : Cluster} {res : Cluster × Except Error Unit} (h : RequestSpec r ctx handler c res)
    (hh : ∀ st, R st (handler st).1) : StateRel R c res.1 := by
  intro v
  rcases h.ran with ⟨hsame, -⟩ | ⟨-, hran, -⟩
  · rw [hsame v]
    exact StateRel.refl hR c v
  · by_cases hv : v = r
    · obtain ⟨st, hst, hst'⟩ := hran.here
      rw [hv, hst, hst']
      exact .some (hh st)
    · rw [hran.elsewhere v hv]
      exact StateRel.refl hR c v

/-- a request to every worker: the leader stays, and the states are related -/
theorem onEach_rel {R : WorkerState → WorkerState → Prop} (hR : ∀ st, R st st) (htrans : ∀ s t u, R s t → R t u → R s u)
    {handler : Env → Handler Unit} (hh : ∀ env st, R st (handler env st).1) (visit : List (WorkerId × Env))
    (c : Cluster) :
    (onEach handler visit c).1.leader = c.leader ∧ StateRel R c (onEach handler visit c).1 := by
  induction visit generalizing c with
  | nil => exact ⟨rfl, StateRel.refl hR c⟩
  | cons p rest ih =>
    obtain ⟨r, env⟩ := p
    have hs := request_spec env r (handler env) c
    have hrel := hs.rel hR (hh env)
    have hl := hs.leader
    unfold onEach
    generalize request env r (handler env) c = res at hrel hl
    obtain ⟨c₁, ans⟩ := res
    cases ans with
    | error err => exact ⟨hl, hrel⟩
    | ok u =>
      obtain ⟨hl₂, hrel₂⟩ := ih c₁
      exact ⟨hl₂.trans hl, hrel.trans htrans hrel₂⟩

theorem onEach_leader (handler : Env → Handler Unit) (visit : List (WorkerId × Env)) (c : Cluster) :
    (onEach handler visit c).1.leader = c.leader :=
  (onEach_rel (R := fun _ _ => True) (fun _ => trivial) (fun _ _ _ _ _ => trivial) (fun _ _ => trivial) visit c).1

theorem RequestSpec.elsewhere {r : WorkerId} {ctx : Context} {handler : Handler Unit} {c : Cluster}
    {res : Cluster × Except Error Unit} (h : RequestSpec r ctx handler c res) {v : WorkerId}
    (hv : v ∉ c.leader.workers.keys) : res.1.stateOf v = c.stateOf v := by
  rcases h.ran with ⟨hsame, -⟩ | ⟨⟨exec, hexec, -⟩, hran, -⟩
  · exact hsame v
  · refine hran.elsewhere v fun hvr => hv ?_
    rw [hvr]
    exact FnvHashMap.mem_keys hexec

/-- workers that are not registered stay as they are -/
theorem onEach_elsewhere (handler : Env → Handler Unit) (visit : List (WorkerId × Env)) {c : Cluster} {v : WorkerId}
    (hv : v ∉ c.leader.workers.keys) : (onEach handler visit c).1.stateOf v = c.stateOf v := by
  induction visit generalizing c with
  | nil => rfl
  | cons p rest ih =>
    obtain ⟨r, env⟩ := p
    have hs := request_spec env r (handler env) c
    have hsame := hs.elsewhere hv
    have hl := hs.leader
    unfold onEach
    generalize request env r (handler env) c = res at hsame hl
    obtain ⟨c₁, ans⟩ := res
    cases ans with
    | error err => exact hsame
    | ok u => exact (ih (by rwa [hl])).trans hsame

/-! ## What the cluster holds after a request -/

theorem holds_iff {c : Cluster} {v : WorkerId} {x : EntityName} :
    c.Holds v x ↔ ∃ st, c.stateOf v = some st ∧ st.Holds x := by
  unfold Cluster.Holds Cluster.copyOf WorkerState.Holds
  cases c.stateOf v <;> simp

/-- the cluster holds nothing new, except entity `x` at worker `r` -/
def Entries (r : WorkerId) (x : EntityName) (c c' : Cluster) : Prop :=
  ∀ v y, c'.Holds v y → c.Holds v y ∨ (v = r ∧ y = x)

/-- the cluster holds nothing new -/
def Shrinks (c c' : Cluster) : Prop := ∀ v y, c'.Holds v y → c.Holds v y

theorem Shrinks.unique {c c' : Cluster} (h : Shrinks c c') (hu : c.Unique) : c'.Unique :=
  fun x v w hv hw => hu x v w (h v x hv) (h w x hw)

/-- no worker but `r` holds entity `x` -/
def FreeElsewhere (c : Cluster) (r : WorkerId) (x : EntityName) : Prop := ∀ v, v ≠ r → ¬ c.Holds v x

theorem Entries.unique {r : WorkerId} {x : EntityName} {c c' : Cluster} (h : Entries r x c c') (hu : c.Unique)
    (hf : FreeElsewhere c r x) : c'.Unique := by
  have hr : ∀ v, c'.Holds v x → v = r := by
    intro v hv
    rcases h v x hv with hv | ⟨hv, -⟩
    · by_contra hne
      exact hf v hne hv
    · exact hv
  intro y v w hv hw
  by_cases hy : y = x
  · subst hy
    rw [hr v hv, hr w hw]
  · have hold : ∀ u, c'.Holds u y → c.Holds u y := fun u hu' => (h u y hu').resolve_right fun hx => hy hx.2
    exact hu y v w (hold v hv) (hold w hw)

theorem shrinks_of_same {c c' : Cluster} (h : ∀ v, c'.stateOf v = c.stateOf v) : Shrinks c c' := by
  intro v y hv
  rw [holds_iff, h v] at hv
  exact holds_iff.2 hv

theorem shrinks_of_rel {c c' : Cluster} (h : StateRel (fun st st' => ∀ y, st'.Holds y → st.Holds y) c c') :
    Shrinks c c' := by
  intro v y hv
  obtain ⟨st', hst', hy⟩ := holds_iff.1 hv
  obtain ⟨st, hst, hr⟩ := h.back hst'
  exact holds_iff.2 ⟨st, hst, hr y hy⟩

/-- a handler about entity `x` ran at worker `r` -/
theorem entries_of_ranAt {r : WorkerId} {x : EntityName} {handler : Handler Unit} {c c' : Cluster}
    (h : RanAt r handler c c') (ht : ∀ st, WorkerState.Touches x st (handler st).1) : Entries r x c c' := by
  intro v y hv
  by_cases hvr : v = r
  · subst hvr
    by_cases hy : y = x
    · exact .inr ⟨rfl, hy⟩
    · obtain ⟨st, hst, hst'⟩ := h.here
      obtain ⟨st₁, hst₁, hh⟩ := holds_iff.1 hv
      obtain rfl := Option.some.inj (hst₁.symm.trans hst')
      refine .inl (holds_iff.2 ⟨st, hst, ?_⟩)
      simpa only [WorkerState.Holds, WorkerState.copyOf, (ht st).inMemory y hy, (ht st).archived y hy] using hh
  · rw [holds_iff, h.elsewhere v hvr] at hv
    exact .inl (holds_iff.2 hv)

/-- where the handler leaves entity `x` alone too, the cluster holds nothing new -/
theorem Entries.shrinks {r : WorkerId} {x : EntityName} {c c' : Cluster} (h : Entries r x c c')
    (hx : c'.Holds r x → c.Holds r x) : Shrinks c c' := by
  intro v y hv
  rcases h v y hv with hv' | ⟨rfl, rfl⟩
  · exact hv'
  · exact hx hv

/-- **Spawning an entity at worker `r`** adds at most that entity there, and none where the worker does not receive it
or cannot make it. -/
theorem request_spawn (env : Env) (r : WorkerId) (x : EntityName) (prefab : Option PrefabName) (c : Cluster) :
    let res := request env r (WorkerState.spawnEntity env.load x prefab) c
    res.1.leader = c.leader ∧ Entries r x c res.1 ∧
      (Shrinks c res.1 ∨ ∃ exec st, c.leader.workers.lookup r = some exec ∧ Migration.Receives c r exec env.ctx ∧
        c.stateOf r = some st ∧ st.Makes prefab) := by
  have hs := request_spec env r (WorkerState.spawnEntity env.load x prefab) c
  refine ⟨hs.leader, ?_⟩
  rcases hs.ran with ⟨hsame, -⟩ | ⟨⟨exec, hexec, hacc⟩, hran, -⟩
  · have hsh := shrinks_of_same hsame
    exact ⟨fun v y hv => .inl (hsh v y hv), .inl hsh⟩
  · have hent := entries_of_ranAt hran (WorkerState.spawnEntity_touches env.load x prefab)
    refine ⟨hent, ?_⟩
    obtain ⟨st, hst, hst'⟩ := hran.here
    by_cases hmk : st.Takes ∧ st.Makes prefab
    · exact .inr ⟨exec, st, hexec, ⟨hacc, st, hst, hmk.1⟩, hst, hmk.2⟩
    · refine .inl (hent.shrinks fun hx => ?_)
      obtain ⟨hm, ha⟩ := WorkerState.spawnEntity_refused env.load x prefab hmk
      obtain ⟨st₁, hst₁, hh⟩ := holds_iff.1 hx
      obtain rfl := Option.some.inj (hst₁.symm.trans hst')
      refine holds_iff.2 ⟨st, hst, ?_⟩
      simpa only [WorkerState.Holds, WorkerState.copyOf, hm, ha] using hh

/-- removing adds nothing -/
theorem removeLoop_shrinks (x : EntityName) (visit : List (WorkerId × Env)) (c : Cluster) :
    Shrinks c (removeLoop x visit c) := by
  induction visit generalizing c with
  | nil => exact fun _ _ hv => hv
  | cons p rest ih =>
    obtain ⟨r, env⟩ := p
    have hsh := shrinks_of_rel ((request_spec env r (WorkerState.removeEntity x) c).rel (fun st _ h => h)
      fun st y h => WorkerState.removeEntity_holds h)
    unfold removeLoop
    generalize request env r (WorkerState.removeEntity x) c = res at hsh
    obtain ⟨c₁, ans⟩ := res
    cases ans with
    | ok u => exact hsh
    | error err => exact fun v y hv => hsh v y (ih c₁ v y hv)

end BigWorlds.Leader
