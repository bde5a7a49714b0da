/-
Handling `MigrateEntities` at one worker (`worker/mod.rs`) and the leader's part in it (`leader/mod.rs`,
`WorkerProxy` with `TakeEntity`).

The worker lists its entities and, for each one, reads it, sends `TakeEntity` to a random peer (or through the leader
when it has no peers) and then removes it. An error of any nested call ends the handler. Random choices, clock
readings, the loading of dynlib behaviors and what becomes of each remote call are a `Choice` for each entity.

- `Touches x c c'`: the frame of one round, nothing but entity `x` changes;
- `send_spec`: sending does nothing, or `TakeEntity` ran at a `Target`, a worker the call can reach;
- `ranAt_take`, `onManager_get`, `onManager_remove`: what the three messages of a round do to its entity.
-/
import BigWorlds.Cluster.State

namespace BigWorlds.Migration

open BigWorlds.Core (Exec Fate Rng)
open Cluster (Accepts RanAt Handler)

/-! ## Model -/

/-- what the environment decides while one entity is handled -/
structure Choice where
  rng : Rng WorkerId
  load : Loader
  /-- the clock of the source, in seconds -/
  now : UInt32
  /-- the clock of the target, in seconds -/
  takenAt : UInt32
  micros : UInt64
  leaderFate : Fate Error
  workerFate : Fate Error

/-- a request to the worker's own manager -/
def onManager {α : Type} (w : WorkerId) (handler : Handler α) (c : Cluster) : Cluster × Except Error α :=
  match c.workers.lookup w with
  | some node =>
    ({ c with workers := c.workers.insert w { node with state := (handler node.state).1 } }, (handler node.state).2)
  | none => (c, .error (.tokioOneshotRecvError "channel closed"))

def stamped (takenAt : UInt32) (e : Entity) : Entity := { e with meta_ := { e.meta_ with lastMoved := some takenAt } }

/-- the arm of `TakeEntity` at the target -/
def takeEntity (ch : Choice) (x : EntityName) (e : Entity) : Handler Unit :=
  WorkerState.addEntity ch.load x (stamped ch.takenAt e)

/-- the leader's arm for `WorkerProxy(TakeEntity)`: a random registered worker that the call did not go through; with
none left it panics and the caller's channel closes -/
def proxyTakeEntity (ctx : Context) (ch : Choice) (x : EntityName) (e : Entity) (c : Cluster) :
    Cluster × Except Error Unit :=
  match ch.rng.choose (c.leader.workers.keys.filter fun r => ctx.wentThroughWorker r = false) with
  | some r =>
    match c.leader.workers.lookup r with
    | some exec => c.execute exec ch.workerFate ch.micros (Cluster.fromLeader exec ctx) r (takeEntity ch x e)
    | none => (c, .error (.tokioOneshotRecvError "channel closed"))
  | none => (c, .error (.tokioOneshotRecvError "channel closed"))

/-- sends the entity off: to a random peer, or through the leader when there are no peers -/
def send (w : WorkerId) (ctx : Context) (ch : Choice) (x : EntityName) (e : Entity) (c : Cluster) :
    Cluster × Except Error Unit :=
  match c.stateOf w with
  | none => (c, .ok ())
  | some st =>
    if st.otherWorkers.keys = ∅ then
      match st.leader with
      | .connected exec => exec.call ch.leaderFate .otherOf (proxyTakeEntity ctx ch x e) c
      | _ => (c, .ok ())
    else
      match ch.rng.choose st.otherWorkers.keys with
      | none => (c, .ok ())
      | some p =>
        match st.otherWorkers.lookup p with
        | some (.connected exec) => c.execute exec ch.workerFate ch.micros ctx p (takeEntity ch x e)
        | _ => (c, .error (.workerNotConnected "no direct connection available"))

def coolingDown (cooldown : Option UInt32) (now : UInt32) (e : Entity) : Bool :=
  match cooldown, e.meta_.lastMoved with
  | some cooldownSecs, some lastMoved => now - lastMoved ≤ cooldownSecs
  | _, _ => false

/-- the entity is sent, then removed whatever became of it at the other end -/
def handOver (w : WorkerId) (ctx : Context) (ch : Choice) (x : EntityName) (e : Entity) (c : Cluster) :
    Cluster × Except Error Unit :=
  match send w ctx ch x e c with
  | (c, .error err) => (c, .error err)
  | (c, .ok ()) => onManager w (WorkerState.removeEntity x) c

/-- one round of the handler's loop -/
def migrateEntity (cooldown : Option UInt32) (w : WorkerId) (ctx : Context) (x : EntityName) (ch : Choice)
    (c : Cluster) : Cluster × Except Error Unit :=
  match onManager w (WorkerState.getEntity ch.now x) c with
  | (c, .error err) => (c, .error err)
  | (c, .ok e) => if coolingDown cooldown ch.now e then (c, .ok ()) else handOver w ctx ch x e c

def migrateLoop (cooldown : Option UInt32) (w : WorkerId) (ctx : Context) :
    List (EntityName × Choice) → Cluster → Cluster × Except Error Unit
  | [], c => (c, .ok ())
  | (x, ch) :: rest, c =>
    match migrateEntity cooldown w ctx x ch c with
    | (c, .error err) => (c, .error err)
    | (c, .ok ()) => migrateLoop cooldown w ctx rest c

/-- the handler of `MigrateEntities` at worker `w`, run with context `ctx` over the listed names -/
def migrateEntities (w : WorkerId) (ctx : Context) (listed : List (EntityName × Choice)) (c : Cluster) :
    Cluster × Except Error Unit :=
  match c.stateOf w with
  | some st =>
    if st.part.isSome then migrateLoop st.config.entityMigrationCooldownSecs w ctx listed c
    else (c, .error WorkerState.noPartition)
  | none => (c, .error (.tokioOneshotRecvError "channel closed"))

/-- the names are what the worker's `GetEntities` answers -/
def Lists (c : Cluster) (w : WorkerId) (listed : List (EntityName × Choice)) : Prop :=
  ∀ st, c.stateOf w = some st → st.part.isSome = true → st.Listing (listed.map Prod.fst)

/-! ## Where a call can go -/

/-- the handler has somewhere to send entities -/
def HasRoute (st : WorkerState) : Prop := st.otherWorkers.keys ≠ ∅ ∨ ∃ exec, st.leader = .connected exec

/-- the handler's call can reach worker `p` over `exec`; `direct`: every executor on the way is local -/
inductive Target (c : Cluster) (st : WorkerState) (ctx : Context) (p : WorkerId) : Exec → Prop → Prop
  | peer (exec : Exec) (h : st.otherWorkers.lookup p = some (.connected exec)) :
    Target c st ctx p exec (exec = .local)
  | leader (lexec exec : Exec) (hn : st.otherWorkers.keys = ∅) (hl : st.leader = .connected lexec)
    (hr : c.leader.workers.lookup p = some exec) (hp : ctx.wentThroughWorker p = false) :
    Target c st ctx p exec (lexec = .local ∧ exec = .local)

/-- the random choice falls on worker `p` -/
def Choice.Picks (ch : Choice) (c : Cluster) (st : WorkerState) (ctx : Context) (p : WorkerId) : Prop :=
  if st.otherWorkers.keys = ∅ then
    ch.rng.choose (c.leader.workers.keys.filter fun r => ctx.wentThroughWorker r = false) = some p
  else ch.rng.choose st.otherWorkers.keys = some p

/-- no answer is lost -/
def Choice.Answered (ch : Choice) : Prop := ¬ ch.leaderFate.LosesReply ∧ ¬ ch.workerFate.LosesReply

/-- the worker's main loop lets the signal in and its partition can take entities -/
def Receives (c : Cluster) (p : WorkerId) (exec : Exec) (ctx : Context) : Prop :=
  Accepts c p exec ctx ∧ ∃ st, c.stateOf p = some st ∧ st.Takes

/-! ## What one nested call changes -/

/-- everything but entity `x` is as before, and no worker accepts more signals -/
structure Touches (x : EntityName) (c c' : Cluster) : Prop where
  leader : c'.leader = c.leader
  accepts : ∀ v exec ctx, Accepts c' v exec ctx → Accepts c v exec ctx
  states : ∀ v, Option.Rel (WorkerState.Touches x) (c.stateOf v) (c'.stateOf v)

theorem Touches.refl (x : EntityName) (c : Cluster) : Touches x c c := by
  refine ⟨rfl, fun _ _ _ h => h, fun v => ?_⟩
  cases c.stateOf v with
  | none => exact .none
  | some st => exact .some (WorkerState.Touches.refl x st)

theorem Touches.state {x : EntityName} {c c' : Cluster} (h : Touches x c c') {v : WorkerId} {st : WorkerState}
    (hst : c.stateOf v = some st) : ∃ st', c'.stateOf v = some st' ∧ WorkerState.Touches x st st' := by
  have hv := h.states v
  rw [hst] at hv
  cases hc : c'.stateOf v with
  | none => rw [hc] at hv; cases hv
  | some st' => rw [hc] at hv; cases hv with | some ht => exact ⟨st', rfl, ht⟩

theorem Touches.stateBack {x : EntityName} {c c' : Cluster} (h : Touches x c c') {v : WorkerId} {st' : WorkerState}
    (hst : c'.stateOf v = some st') : ∃ st, c.stateOf v = some st ∧ WorkerState.Touches x st st' := by
  have hv := h.states v
  rw [hst] at hv
  cases hc : c.stateOf v with
  | none => rw [hc] at hv; cases hv
  | some st => rw [hc] at hv; cases hv with | some ht => exact ⟨st, rfl, ht⟩

theorem Touches.trans {x : EntityName} {c₁ c₂ c₃ : Cluster} (h₁ : Touches x c₁ c₂) (h₂ : Touches x c₂ c₃) :
    Touches x c₁ c₃ := by
  refine ⟨h₂.leader.trans h₁.leader, fun v e k h => h₁.accepts v e k (h₂.accepts v e k h), fun v => ?_⟩
  have hv := h₁.states v
  cases hc : c₁.stateOf v with
  | none =>
    rw [hc] at hv
    cases hc₂ : c₂.stateOf v with
    | some st => rw [hc₂] at hv; cases hv
    | none =>
      have hv₂ := h₂.states v
      rwa [hc₂] at hv₂
  | some st =>
    obtain ⟨st₂, hst₂, ht₂⟩ := h₁.state hc
    obtain ⟨st₃, hst₃, ht₃⟩ := h₂.state hst₂
    rw [hst₃]
    exact .some (ht₂.trans ht₃)

/-- the copies of any other entity stay where they are -/
theorem Touches.copyOf {x y : EntityName} {c c' : Cluster} (h : Touches x c c') (hy : y ≠ x) (v : WorkerId) :
    c'.copyOf v y = c.copyOf v y := by
  have hv := h.states v
  unfold Cluster.copyOf
  cases hc : c.stateOf v with
  | none =>
    rw [hc] at hv
    cases hc' : c'.stateOf v with
    | none => rfl
    | some st => rw [hc'] at hv; cases hv
  | some st =>
    obtain ⟨st', hst', ht⟩ := h.state hc
    simp only [hst', Option.bind_some, WorkerState.copyOf, ht.inMemory y hy, ht.archived y hy]

theorem touches_of_same {x : EntityName} {c c' : Cluster} (hl : c'.leader = c.leader)
    (ha : ∀ v exec ctx, Accepts c' v exec ctx → Accepts c v exec ctx) (hs : ∀ v, c'.stateOf v = c.stateOf v) :
    Touches x c c' := by
  refine ⟨hl, ha, fun v => ?_⟩
  rw [hs]
  exact (Touches.refl x c).states v

theorem touches_of_ranAt {α : Type} {x : EntityName} {c c' : Cluster} {p : WorkerId} {handler : Handler α}
    (hl : c'.leader = c.leader) (ha : ∀ v exec ctx, Accepts c' v exec ctx → Accepts c v exec ctx)
    (hr : RanAt p handler c c') (ht : ∀ st, WorkerState.Touches x st (handler st).1) : Touches x c c' := by
  refine ⟨hl, ha, fun v => ?_⟩
  by_cases hv : v = p
  · obtain ⟨st, hst, hst'⟩ := hr.here
    rw [hv, hst, hst']
    exact .some (ht st)
  · rw [hr.elsewhere v hv]
    exact (Touches.refl x c).states v

theorem onManager_spec {α : Type} {w : WorkerId} (handler : Handler α) {c : Cluster} {st : WorkerState}
    (hst : c.stateOf w = some st) :
    (onManager w handler c).1.leader = c.leader ∧
      (∀ v exec ctx, Accepts (onManager w handler c).1 v exec ctx ↔ Accepts c v exec ctx) ∧
      RanAt w handler c (onManager w handler c).1 ∧ (onManager w handler c).2 = (handler st).2 := by
  obtain ⟨node, hn, rfl⟩ := Option.map_eq_some_iff.mp hst
  simp only [onManager, hn]
  refine ⟨trivial, fun v exec ctx => ?_, ⟨⟨node.state, hst, ?_⟩, fun v hv => ?_⟩, trivial⟩
  · unfold Accepts
    by_cases hv : v = w
    · subst hv
      simp [hn]
    · simp [Finmap.lookup_insert_of_ne _ hv]
  · rw [Cluster.stateOf_insert, if_pos rfl]
  · rw [Cluster.stateOf_insert, if_neg hv]

theorem target_congr {c c' : Cluster} {st st' : WorkerState} {x : EntityName} (hl : c'.leader = c.leader)
    (ht : WorkerState.Touches x st st') {ctx : Context} {p : WorkerId} {exec : Exec} {direct : Prop} :
    Target c' st' ctx p exec direct ↔ Target c st ctx p exec direct := by
  constructor
  · rintro (⟨_, h⟩ | ⟨lexec, _, hn, hle, hr, hp⟩)
    · exact .peer exec (ht.otherWorkers ▸ h)
    · exact .leader lexec exec (ht.otherWorkers ▸ hn) (ht.leader ▸ hle) (hl ▸ hr) hp
  · rintro (⟨_, h⟩ | ⟨lexec, _, hn, hle, hr, hp⟩)
    · exact .peer exec (ht.otherWorkers ▸ h)
    · exact .leader lexec exec (ht.otherWorkers ▸ hn) (ht.leader ▸ hle) (hl ▸ hr) hp

theorem takes_congr {x : EntityName} {st st' : WorkerState} (ht : WorkerState.Touches x st st') :
    st'.Takes ↔ st.Takes := by
  constructor
  · rintro ⟨hm, hp, ha⟩
    exact ⟨ht.model ▸ hm, ht.part ▸ hp, fun hc => ht.archive ▸ ha (ht.creates ▸ hc)⟩
  · rintro ⟨hm, hp, ha⟩
    exact ⟨ht.model ▸ hm, ht.part ▸ hp, fun hc => ht.archive ▸ ha (ht.creates ▸ hc)⟩

theorem Touches.receives {x : EntityName} {c c' : Cluster} (h : Touches x c c') {p : WorkerId} {exec : Exec}
    {ctx : Context} (hr : Receives c' p exec ctx) : Receives c p exec ctx := by
  obtain ⟨ha, sp', hsp', ht⟩ := hr
  obtain ⟨sp, hsp, hts⟩ := h.stateBack hsp'
  exact ⟨h.accepts p exec ctx ha, sp, hsp, (takes_congr hts).mp ht⟩

/-! ## Sending -/

theorem takeEntity_touches (ch : Choice) (x : EntityName) (e : Entity) (st : WorkerState) :
    WorkerState.Touches x st (takeEntity ch x e st).1 :=
  WorkerState.addEntity_touches _ x _ st

/-- what a send can do: nothing, or `TakeEntity` ran at the target picked and its caller has its answer; an error in
spite of its success takes a remote executor on the way and a lost answer -/
def Sent (st : WorkerState) (ctx : Context) (ch : Choice) (x : EntityName) (e : Entity) (c : Cluster)
    (r : Cluster × Except Error Unit) : Prop :=
  ((∀ v, r.1.stateOf v = c.stateOf v) ∧ ((∃ err, r.2 = .error err) ∨ (r.2 = .ok () ∧ ¬ HasRoute st))) ∨
    ∃ p exec direct, Target c st ctx p exec direct ∧ ch.Picks c st ctx p ∧ Accepts c p exec ctx ∧
      RanAt p (takeEntity ch x e) c r.1 ∧ ∃ sp, c.stateOf p = some sp ∧
        ((r.2 = .ok () ∧ (takeEntity ch x e sp).2 = .ok ()) ∨
          ∃ err, r.2 = .error err ∧ ((∃ err', (takeEntity ch x e sp).2 = .error err') ∨ ¬ (direct ∨ ch.Answered)))

/-- `TakeEntity` over one executor to worker `p` -/
theorem execute_take_spec (exec : Exec) (ctx ctx' : Context) (ch : Choice) (x : EntityName) (e : Entity)
    (c : Cluster) (p : WorkerId) (hctx : ∀ c, Accepts c p exec ctx' ↔ Accepts c p exec ctx) :
    let r := c.execute exec ch.workerFate ch.micros ctx' p (takeEntity ch x e)
    Touches x c r.1 ∧
      (((∀ v, r.1.stateOf v = c.stateOf v) ∧ ∃ err, r.2 = .error err) ∨
        (Accepts c p exec ctx ∧ RanAt p (takeEntity ch x e) c r.1 ∧ ∃ sp, c.stateOf p = some sp ∧
          ((r.2 = .ok () ∧ (takeEntity ch x e sp).2 = .ok ()) ∨
            ∃ err, r.2 = .error err ∧ ((∃ err', (takeEntity ch x e sp).2 = .error err') ∨
              (exec = .remote ∧ ch.workerFate.LosesReply))))) := by
  obtain ⟨hl, ha, ⟨hsame, herr⟩ | ⟨hacc, hran, sp, hsp, hans⟩⟩ :=
    Cluster.execute_spec exec ch.workerFate ch.micros ctx' p (takeEntity ch x e) c
  · exact ⟨touches_of_same hl ha hsame, .inl ⟨hsame, herr⟩⟩
  · refine ⟨touches_of_ranAt hl ha hran (takeEntity_touches ch x e), .inr ⟨(hctx c).mp hacc, hran, sp, hsp, ?_⟩⟩
    rcases hans with ⟨a, h1, h2⟩ | h
    · exact .inl ⟨h1, h2⟩
    · exact .inr h

/-- the leader's part: nothing, or `TakeEntity` ran at a registered worker the call did not go through -/
theorem proxy_spec (ctx : Context) (ch : Choice) (x : EntityName) (e : Entity) (c : Cluster) :
    let r := proxyTakeEntity ctx ch x e c
    Touches x c r.1 ∧
      (((∀ v, r.1.stateOf v = c.stateOf v) ∧ ∃ err, r.2 = .error err) ∨
        ∃ p exec, c.leader.workers.lookup p = some exec ∧ ctx.wentThroughWorker p = false ∧
          ch.rng.choose (c.leader.workers.keys.filter fun r => ctx.wentThroughWorker r = false) = some p ∧
          Accepts c p exec ctx ∧ RanAt p (takeEntity ch x e) c r.1 ∧ ∃ sp, c.stateOf p = some sp ∧
            ((r.2 = .ok () ∧ (takeEntity ch x e sp).2 = .ok ()) ∨
              ∃ err, r.2 = .error err ∧ ((∃ err', (takeEntity ch x e sp).2 = .error err') ∨
                (exec = .remote ∧ ch.workerFate.LosesReply)))) := by
  unfold proxyTakeEntity
  split
  · rename_i r hr
    have hmem := ch.rng.choose_mem hr
    rw [Finset.mem_filter] at hmem
    split
    · rename_i exec hexec
      obtain ⟨ht, h | ⟨hacc, hran, hans⟩⟩ :=
        execute_take_spec exec ctx (Cluster.fromLeader exec ctx) ch x e c r
          (fun c => Cluster.accepts_fromLeader c r exec exec ctx)
      · exact ⟨ht, .inl h⟩
      · exact ⟨ht, .inr ⟨r, exec, hexec, hmem.2, hr, hacc, hran, hans⟩⟩
    · exact ⟨Touches.refl x c, .inl ⟨fun _ => rfl, _, rfl⟩⟩
  · exact ⟨Touches.refl x c, .inl ⟨fun _ => rfl, _, rfl⟩⟩

/-- **What sending can do.** -/
theorem send_spec {w : WorkerId} {st : WorkerState} (ctx : Context) (ch : Choice) (x : EntityName) (e : Entity)
    {c : Cluster} (hst : c.stateOf w = some st) :
    Touches x c (send w ctx ch x e c).1 ∧ Sent st ctx ch x e c (send w ctx ch x e c) := by
  unfold send
  simp only [hst]
  split_ifs with hk
  · -- no peers: through the leader, if it is connected
    split
    · rename_i lexec hl
      obtain ⟨ht, hproxy⟩ := proxy_spec ctx ch x e c
      rcases lexec.call_cases ch.leaderFate .otherOf (proxyTakeEntity ctx ch x e) c with ⟨-, err, h⟩ | ⟨h1, h2⟩
      · rw [h]
        exact ⟨Touches.refl x c, .inl ⟨fun _ => rfl, .inl ⟨err, rfl⟩⟩⟩
      · refine ⟨h1 ▸ ht, ?_⟩
        rcases hproxy with ⟨hsame, err, herr⟩ | ⟨p, exec, hr, hp, hpick, hacc, hran, sp, hsp, hans⟩
        · refine .inl ⟨h1 ▸ hsame, .inl ?_⟩
          rcases h2 with ⟨e1, he1, -⟩ | ⟨u, -, hu⟩
          · exact ⟨e1, he1⟩
          · rw [herr] at hu
            cases hu
        · have hpicks : ch.Picks c st ctx p := by
            unfold Choice.Picks
            rwa [if_pos hk]
          refine .inr ⟨p, exec, _, .leader lexec exec hk hl hr hp, hpicks, hacc, h1 ▸ hran, sp, hsp, ?_⟩
          rcases h2 with ⟨err, herr, hw⟩ | ⟨u, hu1, hu2⟩
          · refine .inr ⟨err, herr, ?_⟩
            rcases hw with ⟨err', herr'⟩ | ⟨hremote, hlost⟩
            · rcases hans with ⟨hok, -⟩ | ⟨_, -, ⟨e', he'⟩ | ⟨hremote, hlost⟩⟩
              · rw [hok] at herr'
                cases herr'
              · exact .inl ⟨e', he'⟩
              · refine .inr ?_
                rintro (⟨-, hd⟩ | ⟨-, hd⟩)
                · rw [hd] at hremote
                  cases hremote
                · exact hd hlost
            · refine .inr ?_
              rintro (⟨hd, -⟩ | ⟨hd, -⟩)
              · rw [hd] at hremote
                cases hremote
              · exact hd hlost
          · refine .inl ⟨hu1, ?_⟩
            rcases hans with ⟨-, hok⟩ | ⟨err, herr, -⟩
            · exact hok
            · rw [herr] at hu2
              cases hu2
    · rename_i hl
      refine ⟨Touches.refl x c, .inl ⟨fun _ => rfl, .inr ⟨rfl, ?_⟩⟩⟩
      rintro (hne | ⟨exec, hexec⟩)
      · exact hne hk
      · exact hl exec hexec
  · -- a random peer
    split
    · rename_i hnone
      exact absurd (ch.rng.choose_none hnone) hk
    · rename_i p hp
      split
      · rename_i exec hexec
        obtain ⟨ht, ⟨hsame, herr⟩ | ⟨hacc, hran, sp, hsp, hans⟩⟩ :=
          execute_take_spec exec ctx ctx ch x e c p (fun _ => Iff.rfl)
        · exact ⟨ht, .inl ⟨hsame, .inl herr⟩⟩
        · have hpicks : ch.Picks c st ctx p := by
            unfold Choice.Picks
            rwa [if_neg hk]
          refine ⟨ht, .inr ⟨p, exec, _, .peer exec hexec, hpicks, hacc, hran, sp, hsp, ?_⟩⟩
          rcases hans with hok | ⟨err, herr, he' | ⟨hremote, hlost⟩⟩
          · exact .inl hok
          · exact .inr ⟨err, herr, .inl he'⟩
          · refine .inr ⟨err, herr, .inr ?_⟩
            rintro (hd | ⟨-, hd⟩)
            · rw [hd] at hremote
              cases hremote
            · exact hd hlost
      · exact ⟨Touches.refl x c, .inl ⟨fun _ => rfl, .inl ⟨_, rfl⟩⟩⟩

/-! ## What one round does to its entity -/

/-- nothing about entity `x` changed anywhere -/
def SameAt (x : EntityName) (c c' : Cluster) : Prop :=
  ∀ v, c'.inMemory v x = c.inMemory v x ∧ c'.archived v x = c.archived v x

theorem sameAt_of_stateOf {x : EntityName} {c c' : Cluster} (h : ∀ v, c'.stateOf v = c.stateOf v) : SameAt x c c' := by
  intro v
  simp only [Cluster.inMemory, Cluster.archived, h, and_self]

/-- `TakeEntity` at worker `p`: refused, or the entity is stored there, in its archive or in memory -/
theorem ranAt_take {p : WorkerId} {ch : Choice} {x : EntityName} {e : Entity} {c c' : Cluster}
    (h : RanAt p (takeEntity ch x e) c c') {sp : WorkerState} (hsp : c.stateOf p = some sp) :
    (SameAt x c c' ∧ ∃ err, (takeEntity ch x e sp).2 = .error err) ∨
      ((takeEntity ch x e sp).2 = .ok () ∧ sp.Takes ∧
        (∀ v, v ≠ p → c'.inMemory v x = c.inMemory v x ∧ c'.archived v x = c.archived v x) ∧
        ∃ e', e'.data = e.data ∧
          if sp.createsToArchive then c'.archived p x = some e' ∧ c'.inMemory p x = c.inMemory p x
          else c'.inMemory p x = some e' ∧ c'.archived p x = c.archived p x) := by
  obtain ⟨st, hst, hst'⟩ := h.here
  have hstp : st = sp := Option.some.inj (hst.symm.trans hsp)
  subst hstp
  have helse : ∀ v, v ≠ p → c'.inMemory v x = c.inMemory v x ∧ c'.archived v x = c.archived v x := by
    intro v hv
    simp only [Cluster.inMemory, Cluster.archived, h.elsewhere v hv, and_self]
  rcases WorkerState.addEntity_spec ch.load x (stamped ch.takenAt e) st with
    ⟨⟨hm, ha⟩, herr⟩ | ⟨ht, hs, hok⟩
  · refine .inl ⟨fun v => ?_, herr⟩
    by_cases hv : v = p
    · subst hv
      simp only [Cluster.inMemory, Cluster.archived, hst, hst', Option.bind_some]
      exact ⟨hm, ha⟩
    · exact helse v hv
  · refine .inr ⟨hok, ht, helse, stamped ch.takenAt e, rfl, ?_⟩
    simp only [Cluster.inMemory, Cluster.archived, hst, hst', Option.bind_some]
    exact hs

/-! ## The two requests to the own manager -/

theorem inMemory_of_stateOf {c : Cluster} {v : WorkerId} {st : WorkerState} (h : c.stateOf v = some st)
    (x : EntityName) : c.inMemory v x = st.inMemory x := by
  simp only [Cluster.inMemory, h, Option.bind_some]

theorem archived_of_stateOf {c : Cluster} {v : WorkerId} {st : WorkerState} (h : c.stateOf v = some st)
    (x : EntityName) : c.archived v x = st.archived x := by
  simp only [Cluster.archived, h, Option.bind_some]

/-- nothing about entity `x` changed at workers other than `w` -/
def SameElsewhere (w : WorkerId) (x : EntityName) (c c' : Cluster) : Prop :=
  ∀ v, v ≠ w → c'.inMemory v x = c.inMemory v x ∧ c'.archived v x = c.archived v x

theorem sameElsewhere_of_ranAt {α : Type} {w : WorkerId} {handler : Handler α} {c c' : Cluster} (h : RanAt w handler c c')
    (x : EntityName) : SameElsewhere w x c c' := fun v hv => by
  simp only [Cluster.inMemory, Cluster.archived, h.elsewhere v hv, and_self]

theorem onManager_touches {α : Type} {w : WorkerId} {handler : Handler α} {c : Cluster} {st : WorkerState}
    {x : EntityName} (hst : c.stateOf w = some st) (ht : ∀ st, WorkerState.Touches x st (handler st).1) :
    Touches x c (onManager w handler c).1 := by
  obtain ⟨hl, ha, hr, -⟩ := onManager_spec handler hst
  exact touches_of_ranAt hl (fun v e k => (ha v e k).mp) hr ht

/-- reading: an error when the entity is not in memory, else the entity with its access time stamped -/
theorem onManager_get {w : WorkerId} {c : Cluster} {st : WorkerState} (now : UInt32) (x : EntityName)
    (hst : c.stateOf w = some st) :
    let r := onManager w (WorkerState.getEntity now x) c
    (c.inMemory w x = none ∧ SameAt x c r.1 ∧ ∃ err, r.2 = .error err) ∨
      ∃ e e', c.inMemory w x = some e ∧ r.2 = .ok e' ∧ e'.data = e.data ∧ e'.meta_.lastMoved = e.meta_.lastMoved ∧
        r.1.inMemory w x = some e' ∧ r.1.archived w x = c.archived w x ∧ SameElsewhere w x c r.1 := by
  obtain ⟨-, -, hr, hans⟩ := onManager_spec (WorkerState.getEntity now x) hst
  obtain ⟨st₀, hst₀, hst'⟩ := hr.here
  have h₀ : st₀ = st := Option.some.inj (hst₀.symm.trans hst)
  subst h₀
  simp only
  rw [hans, inMemory_of_stateOf hst, inMemory_of_stateOf hst', archived_of_stateOf hst, archived_of_stateOf hst']
  rcases WorkerState.getEntity_spec now x st₀ with ⟨hn, hs, herr⟩ | ⟨e, e', he, hok, hd, hm, hi, ha⟩
  · refine .inl ⟨hn, sameAt_of_stateOf fun v => ?_, herr⟩
    by_cases hv : v = w
    · rw [hv, hst', hs, hst]
    · exact hr.elsewhere v hv
  · exact .inr ⟨e, e', he, hok, hd, hm, hi, ha, sameElsewhere_of_ranAt hr x⟩

/-- removing an entity that is in memory: the archive keeps what it has -/
theorem onManager_remove {w : WorkerId} {c : Cluster} {x : EntityName} {e : Entity} (h : c.inMemory w x = some e) :
    let r := onManager w (WorkerState.removeEntity x) c
    Touches x c r.1 ∧ r.2 = .ok () ∧ r.1.inMemory w x = none ∧ r.1.archived w x = c.archived w x ∧
      SameElsewhere w x c r.1 := by
  obtain ⟨st, hst, hi⟩ := Option.bind_eq_some_iff.mp h
  obtain ⟨-, -, hr, hans⟩ := onManager_spec (WorkerState.removeEntity x) hst
  obtain ⟨st₀, hst₀, hst'⟩ := hr.here
  have h₀ : st₀ = st := Option.some.inj (hst₀.symm.trans hst)
  subst h₀
  obtain ⟨hok, hn, ha⟩ := WorkerState.removeEntity_spec (Option.isSome_of_eq_some hi)
  refine ⟨onManager_touches hst (WorkerState.removeEntity_touches x), hans.trans hok, ?_, ?_, sameElsewhere_of_ranAt hr x⟩
  · rw [inMemory_of_stateOf hst', hn]
  · rw [archived_of_stateOf hst', archived_of_stateOf hst, ha]

theorem handOver_touches {w : WorkerId} (ctx : Context) (ch : Choice) (x : EntityName) (e : Entity) {c : Cluster}
    {st : WorkerState} (hst : c.stateOf w = some st) : Touches x c (handOver w ctx ch x e c).1 := by
  obtain ⟨ht, -⟩ := send_spec ctx ch x e hst
  unfold handOver
  generalize send w ctx ch x e c = r at ht
  obtain ⟨c₁, ans⟩ := r
  cases ans with
  | error err => exact ht
  | ok u =>
    obtain ⟨st₁, hst₁, -⟩ := ht.state hst
    exact ht.trans (onManager_touches hst₁ (WorkerState.removeEntity_touches x))

theorem migrateEntity_touches (cooldown : Option UInt32) {w : WorkerId} (ctx : Context) (x : EntityName) (ch : Choice)
    {c : Cluster} {st : WorkerState} (hst : c.stateOf w = some st) :
    Touches x c (migrateEntity cooldown w ctx x ch c).1 := by
  have ht := onManager_touches hst (WorkerState.getEntity_touches ch.now x)
  unfold migrateEntity
  generalize onManager w (WorkerState.getEntity ch.now x) c = r at ht
  obtain ⟨c₁, ans⟩ := r
  cases ans with
  | error err => exact ht
  | ok e =>
    simp only
    split_ifs
    · exact ht
    · obtain ⟨st₁, hst₁, -⟩ := ht.state hst
      exact ht.trans (handOver_touches ctx ch x e hst₁)

theorem Touches.inMemory {x y : EntityName} {c c' : Cluster} (h : Touches x c c') (hy : y ≠ x) {v : WorkerId}
    {st : WorkerState} (hst : c.stateOf v = some st) : c'.inMemory v y = c.inMemory v y := by
  obtain ⟨st', hst', ht⟩ := h.state hst
  rw [inMemory_of_stateOf hst, inMemory_of_stateOf hst', ht.inMemory y hy]

end BigWorlds.Migration
