/-
How often an entity moves during one `ReorganizeEntities` (`leader/mod.rs`; `MigrateEntities` and `TakeEntity` of
`worker/mod.rs`).

The leader asks one worker after another to migrate its entities, so an entity that has moved meets a later
`MigrateEntities` at its new holder. There the time of its arrival, which the new holder has written by its own clock,
is compared with a later reading of that same clock.

- `rounds`: the rounds of the loops at the workers, in the order they run, each with the cluster it starts from;
- `reorganize_chained`: each round starts where the one before it ended, and only the last one may fail;
- `handOver_spec`, `rest_spec`: what one round does to the copies of its entity in memory;
- `at_most_one_move`: the result;
- `ball_moves_once`: a ball that comes to a worker whose turn is next.

A hand-over is a round that gets past the cooldown and sends the entity off; where the call is lost it is no move.
-/
import BigWorlds.Cluster.Conservation
import BigWorlds.Cluster.Leader

namespace BigWorlds.Leader

open BigWorlds.Core (Exec Fate Rng)
open Cluster (RanAt)
open Migration (Choice migrateEntity migrateLoop onManager coolingDown)

/-! ## Rounds -/

/-- one round of the loop of `MigrateEntities`, with the cluster before it -/
structure Round where
  cooldown : Option UInt32
  worker : WorkerId
  ctx : Context
  name : EntityName
  choice : Choice
  before : Cluster

namespace Round

def result (r : Round) : Cluster × Except Error Unit :=
  migrateEntity r.cooldown r.worker r.ctx r.name r.choice r.before

/-- the entity is in memory and not cooling down: it is sent off -/
def HandsOver (r : Round) : Bool :=
  match (onManager r.worker (WorkerState.getEntity r.choice.now r.name) r.before).2 with
  | .ok e => !coolingDown r.cooldown r.choice.now e
  | .error _ => false

/-- the worker that the entity is sent to: a random peer, or the one that the leader picks -/
def target (r : Round) : Option WorkerId :=
  match r.before.stateOf r.worker with
  | none => none
  | some st =>
    if st.otherWorkers.keys = ∅ then
      match st.leader with
      | .connected _ =>
        r.choice.rng.choose (r.before.leader.workers.keys.filter fun v => r.ctx.wentThroughWorker v = false)
      | _ => none
    else r.choice.rng.choose st.otherWorkers.keys

/-- the readings of clocks in the round: the worker's own, and that of the worker that takes the entity -/
def readings (r : Round) : List (WorkerId × UInt32) :=
  (r.worker, r.choice.now) :: if r.HandsOver then r.target.toList.map fun p => (p, r.choice.takenAt) else []

end Round

/-- the rounds of one loop, up to the first that fails -/
def loopRounds (cooldown : Option UInt32) (w : WorkerId) (ctx : Context) :
    List (EntityName × Choice) → Cluster → List Round
  | [], _ => []
  | (x, ch) :: rest, c =>
    ⟨cooldown, w, ctx, x, ch, c⟩ ::
      match migrateEntity cooldown w ctx x ch c with
      | (_, .error _) => []
      | (c, .ok ()) => loopRounds cooldown w ctx rest c

def handlerRounds (w : WorkerId) (ctx : Context) (listed : List (EntityName × Choice)) (c : Cluster) : List Round :=
  match c.stateOf w with
  | some st => if st.part.isSome then loopRounds st.config.entityMigrationCooldownSecs w ctx listed c else []
  | none => []

def roundsAt (source : Inbox.Stream) (turn : Turn) (ctx : Context) (c : Cluster) : List Round :=
  match c.workers.lookup turn.worker with
  | none => []
  | some node =>
    let seen := (Inbox.receive turn.worker turn.micros node.seen source ctx).1
    match (Inbox.receive turn.worker turn.micros node.seen source ctx).2 with
    | .handled ctx' =>
      handlerRounds turn.worker ctx' turn.listed
        { c with workers := c.workers.insert turn.worker { node with seen } }
    | _ => []

/-- no round runs where the request is lost on the way -/
def turnRounds (ctx : Context) (turn : Turn) (c : Cluster) : List Round :=
  match c.leader.workers.lookup turn.worker with
  | some exec =>
    match exec, turn.fate with
    | .remote, .requestLost _ => []
    | exec, _ => roundsAt (Cluster.streamOf exec) turn (Cluster.fromLeader exec ctx) c
  | none => []

/-- the rounds of `reorganizeEntities` -/
def rounds (ctx : Context) : List Turn → Cluster → List Round
  | [], _ => []
  | turn :: rest, c =>
    turnRounds ctx turn c ++
      match takeTurn ctx turn c with
      | (c, .ok ()) => rounds ctx rest c
      | (_, .error _) => []

/-! ## One round after another -/

/-- the round starts in this state of the workers, with the cooldown of its worker -/
structure Round.Starts (r : Round) (c : Cluster) : Prop where
  states : ∀ v, r.before.stateOf v = c.stateOf v
  config : ∃ st, c.stateOf r.worker = some st ∧ st.config.entityMigrationCooldownSecs = r.cooldown

/-- each round starts where the one before it ended, and only the last one may fail -/
def Chained : Cluster → List Round → Prop
  | _, [] => True
  | c, r :: rs => r.Starts c ∧ (rs ≠ [] → r.result.2 = .ok ()) ∧ Chained r.result.1 rs

/-- as `Chained`, with no round that fails, and the state of the workers at the end -/
def Leads : Cluster → List Round → Cluster → Prop
  | c, [], c' => ∀ v, c'.stateOf v = c.stateOf v
  | c, r :: rs, c' => r.Starts c ∧ r.result.2 = .ok () ∧ Leads r.result.1 rs c'

theorem Chained.congr {c c' : Cluster} {rs : List Round} (h : Chained c rs)
    (hsame : ∀ v, c.stateOf v = c'.stateOf v) : Chained c' rs := by
  cases rs with
  | nil => trivial
  | cons r rs =>
    obtain ⟨⟨hstates, hconfig⟩, hrest⟩ := h
    rw [hsame] at hconfig
    exact ⟨⟨fun v => (hstates v).trans (hsame v), hconfig⟩, hrest⟩

theorem Leads.congr {c c' d : Cluster} {rs : List Round} (h : Leads c rs d)
    (hsame : ∀ v, c.stateOf v = c'.stateOf v) : Leads c' rs d := by
  cases rs with
  | nil => exact fun v => (h v).trans (hsame v)
  | cons r rs =>
    obtain ⟨⟨hstates, hconfig⟩, hrest⟩ := h
    rw [hsame] at hconfig
    exact ⟨⟨fun v => (hstates v).trans (hsame v), hconfig⟩, hrest⟩

theorem Leads.chained {c c' : Cluster} {rs rs' : List Round} (h : Leads c rs c') (h' : Chained c' rs') :
    Chained c (rs ++ rs') := by
  induction rs generalizing c with
  | nil => exact h'.congr h
  | cons r rs ih => exact ⟨h.1, fun _ => h.2.1, ih h.2.2⟩

/-- the rounds are those of a call with this result -/
structure Traces (c : Cluster) (rs : List Round) (res : Cluster × Except Error Unit) : Prop where
  chained : Chained c rs
  leads : res.2 = .ok () → Leads c rs res.1

theorem Traces.none (c : Cluster) {res : Cluster × Except Error Unit}
    (h : res.2 = .ok () → ∀ v, res.1.stateOf v = c.stateOf v) : Traces c [] res := ⟨trivial, h⟩

theorem Traces.congr {c c' : Cluster} {rs : List Round} {res : Cluster × Except Error Unit} (h : Traces c rs res)
    (hsame : ∀ v, c.stateOf v = c'.stateOf v) : Traces c' rs res :=
  ⟨h.chained.congr hsame, fun hok => (h.leads hok).congr hsame⟩

theorem migrateLoop_traces {w : WorkerId} {ctx : Context} (listed : List (EntityName × Choice)) {c : Cluster}
    {st : WorkerState} (hst : c.stateOf w = some st) :
    Traces c (loopRounds st.config.entityMigrationCooldownSecs w ctx listed c)
      (migrateLoop st.config.entityMigrationCooldownSecs w ctx listed c) := by
  induction listed generalizing c st with
  | nil => exact Traces.none c fun _ _ => rfl
  | cons p rest ih =>
    obtain ⟨x, ch⟩ := p
    have hstarts : Round.Starts ⟨st.config.entityMigrationCooldownSecs, w, ctx, x, ch, c⟩ c :=
      ⟨fun _ => rfl, st, hst, rfl⟩
    obtain ⟨st₁, hst₁, htouch⟩ :=
      (Migration.migrateEntity_touches st.config.entityMigrationCooldownSecs ctx x ch hst).state hst
    unfold loopRounds migrateLoop
    cases hround : migrateEntity st.config.entityMigrationCooldownSecs w ctx x ch c with
    | mk c₁ answer =>
      cases answer with
      | error err => exact ⟨⟨hstarts, fun hne => absurd rfl hne, trivial⟩, fun hok => by cases hok⟩
      | ok u =>
        rw [hround] at hst₁
        have hrest := ih hst₁
        rw [htouch.config] at hrest
        have hok : (Round.result ⟨st.config.entityMigrationCooldownSecs, w, ctx, x, ch, c⟩) = (c₁, .ok ()) := hround
        refine ⟨⟨hstarts, fun _ => by rw [hok], ?_⟩, fun hdone => ⟨hstarts, by rw [hok], ?_⟩⟩
        · rw [hok]
          exact hrest.chained
        · rw [hok]
          exact hrest.leads hdone

theorem migrateEntities_traces (w : WorkerId) (ctx : Context) (listed : List (EntityName × Choice)) (c : Cluster) :
    Traces c (handlerRounds w ctx listed c) (Migration.migrateEntities w ctx listed c) := by
  unfold handlerRounds Migration.migrateEntities
  cases hst : c.stateOf w with
  | none => exact Traces.none c fun hok => by cases hok
  | some st =>
    simp only
    split_ifs
    · exact migrateLoop_traces listed hst
    · exact Traces.none c fun hok => by cases hok

theorem migrateAt_traces (source : Inbox.Stream) (turn : Turn) (ctx : Context) (c : Cluster) :
    Traces c (roundsAt source turn ctx c) (migrateAt source turn ctx c) := by
  unfold roundsAt migrateAt
  cases hnode : c.workers.lookup turn.worker with
  | none => exact Traces.none c fun hok => by cases hok
  | some node =>
    simp only
    cases (Inbox.receive turn.worker turn.micros node.seen source ctx).2 with
    | handled ctx' =>
      refine (migrateEntities_traces turn.worker ctx' turn.listed _).congr fun v => ?_
      rw [Cluster.stateOf_insert]
      split_ifs with hv
      · rw [hv, Cluster.stateOf, hnode]
        rfl
      · rfl
    | rejected err => exact Traces.none c fun hok => by cases hok
    | dropped => exact Traces.none c fun hok => by cases hok

theorem takeTurn_traces (ctx : Context) (turn : Turn) (c : Cluster) :
    Traces c (turnRounds ctx turn c) (takeTurn ctx turn c) := by
  unfold turnRounds takeTurn
  cases c.leader.workers.lookup turn.worker with
  | none => exact Traces.none c fun hok => by cases hok
  | some exec =>
    have hat := migrateAt_traces (Cluster.streamOf exec) turn (Cluster.fromLeader exec ctx) c
    have hcall : ∀ (harrives : exec.Arrives turn.fate), Traces c
        (roundsAt (Cluster.streamOf exec) turn (Cluster.fromLeader exec ctx) c)
        (exec.call turn.fate .otherOf (migrateAt (Cluster.streamOf exec) turn (Cluster.fromLeader exec ctx)) c) := by
      intro harrives
      obtain ⟨hstate, hanswer⟩ := Exec.call_arrived harrives .otherOf
        (migrateAt (Cluster.streamOf exec) turn (Cluster.fromLeader exec ctx)) c
      refine ⟨hat.chained, fun hok => ?_⟩
      rw [hstate]
      exact hat.leads ((hanswer ()).mp hok).2
    cases exec with
    | «local» => exact hcall fun hremote => by cases hremote
    | remote =>
      cases hfate : turn.fate with
      | requestLost err => exact Traces.none c fun hok => by cases hok
      | delivered =>
        rw [hfate] at hcall
        exact hcall fun _ _ hlost => by cases hlost
      | replyLost err =>
        rw [hfate] at hcall
        exact hcall fun _ _ hlost => by cases hlost

/-- the rounds of a reorganization run one after another -/
theorem reorganize_chained (ctx : Context) (turns : List Turn) (c : Cluster) : Chained c (rounds ctx turns c) := by
  induction turns generalizing c with
  | nil => trivial
  | cons turn rest ih =>
    have hturn := takeTurn_traces ctx turn c
    unfold rounds
    cases hdone : takeTurn ctx turn c with
    | mk c₁ answer =>
      rw [hdone] at hturn
      cases answer with
      | error err =>
        simp only [List.append_nil]
        exact hturn.chained
      | ok u => exact (hturn.leads rfl).chained (ih c₁)

/-! ## What a round does to the copies in memory -/

theorem touches_inMemory {x y : EntityName} {c c' : Cluster} (h : Migration.Touches x c c') (hy : y ≠ x)
    (v : WorkerId) : c'.inMemory v y = c.inMemory v y := by
  cases hst : c.stateOf v with
  | some st => exact h.inMemory hy hst
  | none =>
    have hrel := h.states v
    rw [hst] at hrel
    cases hst' : c'.stateOf v with
    | some st' =>
      rw [hst'] at hrel
      cases hrel
    | none => rw [Cluster.inMemory, Cluster.inMemory, hst, hst']

/-- the copies of other entities stay -/
theorem Round.other_spec {r : Round} {st : WorkerState} (hst : r.before.stateOf r.worker = some st) {y : EntityName}
    (hy : y ≠ r.name) (v : WorkerId) : r.result.1.inMemory v y = r.before.inMemory v y :=
  touches_inMemory (Migration.migrateEntity_touches r.cooldown r.ctx r.name r.choice hst) hy v

/-- a copy in memory, by the time of its last move -/
def lastMove (c : Cluster) (v : WorkerId) (x : EntityName) : Option (Option UInt32) :=
  (c.inMemory v x).map (·.meta_.lastMoved)

/-- a round that does not hand over leaves the times of the last moves -/
theorem Round.rest_spec {r : Round} {st : WorkerState} (hst : r.before.stateOf r.worker = some st)
    (h : r.HandsOver = false) (v : WorkerId) : lastMove r.result.1 v r.name = lastMove r.before v r.name := by
  unfold Round.HandsOver at h
  unfold Round.result migrateEntity lastMove
  rcases Migration.onManager_get r.choice.now r.name hst with ⟨_, hsame, err, herr⟩ |
    ⟨e, e', he, hok, _, hmoved, hhere, _, helse⟩
  · generalize onManager r.worker (WorkerState.getEntity r.choice.now r.name) r.before = res at hsame herr h
    obtain ⟨c₁, answer⟩ := res
    simp only at herr
    subst herr
    exact congrArg (Option.map _) (hsame v).1
  · generalize onManager r.worker (WorkerState.getEntity r.choice.now r.name) r.before = res at hok hhere helse h
    obtain ⟨c₁, answer⟩ := res
    simp only at hok
    subst hok
    have hcools : coolingDown r.cooldown r.choice.now e' = true := by simpa using h
    simp only [hcools, if_true]
    by_cases hv : v = r.worker
    · rw [hv, hhere, he, Option.map_some, Option.map_some, hmoved]
    · rw [(helse v hv).1]

/-- `TakeEntity` with success stores the entity in memory with the time of its arrival, or in the archive -/
theorem take_inMemory {p : WorkerId} {ch : Choice} {x : EntityName} {e : Entity} {c c' : Cluster}
    (h : RanAt p (Migration.takeEntity ch x e) c c') {sp : WorkerState} (hsp : c.stateOf p = some sp)
    (hok : (Migration.takeEntity ch x e sp).2 = .ok ()) :
    if sp.createsToArchive then c'.inMemory p x = c.inMemory p x
    else c'.inMemory p x = some (Migration.stamped ch.takenAt e) := by
  obtain ⟨st, hst, hst'⟩ := h.here
  obtain rfl : st = sp := Option.some.inj (hst.symm.trans hsp)
  rw [Migration.inMemory_of_stateOf hst, Migration.inMemory_of_stateOf hst']
  rcases WorkerState.addEntity_spec ch.load x (Migration.stamped ch.takenAt e) st with ⟨_, err, herr⟩ | ⟨_, hstored, _⟩
  · rw [Migration.takeEntity, herr] at hok
    cases hok
  · unfold WorkerState.Stored at hstored
    split_ifs at hstored ⊢
    · exact hstored.2
    · exact hstored.1

/-- the worker that takes the entity is the target -/
theorem Round.target_eq {r : Round} {st st₁ : WorkerState} {c₁ : Cluster} {p : WorkerId} {exec : Exec} {direct : Prop}
    (hst : r.before.stateOf r.worker = some st) (hleader : c₁.leader = r.before.leader)
    (htouch : WorkerState.Touches r.name st st₁) (htarget : Migration.Target c₁ st₁ r.ctx p exec direct)
    (hpicks : r.choice.Picks c₁ st₁ r.ctx p) : r.target = some p := by
  unfold Choice.Picks at hpicks
  unfold Round.target
  rw [hst]
  simp only [← htouch.otherWorkers, ← htouch.leader, ← hleader]
  rcases htarget with ⟨_, hpeer⟩ | ⟨lexec, _, hnone, hconnected, _, _⟩
  · have hne : st₁.otherWorkers.keys ≠ ∅ := Finset.ne_empty_of_mem (FnvHashMap.mem_keys hpeer)
    rw [if_neg hne] at hpicks ⊢
    exact hpicks
  · rw [if_pos hnone] at hpicks ⊢
    rw [hconnected]
    exact hpicks

/-- without a route there is no target -/
theorem Round.target_none {r : Round} {st st₁ : WorkerState} (hst : r.before.stateOf r.worker = some st)
    (htouch : WorkerState.Touches r.name st st₁) (hroute : ¬ Migration.HasRoute st₁) : r.target = none := by
  unfold Migration.HasRoute at hroute
  push Not at hroute
  unfold Round.target
  rw [hst]
  simp only [← htouch.otherWorkers, ← htouch.leader]
  rw [if_pos hroute.1]
  split
  · rename_i exec hconnected
    exact absurd hconnected (hroute.2 exec)
  · rfl

/-- what a send that goes through leaves of the copies in memory: the target may have one more, if it does not keep
entities in its archive -/
theorem Round.send_copies {r : Round} {st st₁ : WorkerState} {c₁ c₂ : Cluster} {e : Entity}
    (hst : r.before.stateOf r.worker = some st) (htouch : Migration.Touches r.name r.before c₁)
    (hst₁t : WorkerState.Touches r.name st st₁) (hhere : c₁.inMemory r.worker r.name = some e)
    (hsend : Migration.Sent st₁ r.ctx r.choice r.name e c₁ (c₂, .ok ())) :
    (∃ e₂, c₂.inMemory r.worker r.name = some e₂) ∧ ∀ v,
      (c₂.inMemory v r.name = c₁.inMemory v r.name ∧
        (r.target = some v → ∃ sp, r.before.stateOf v = some sp ∧ sp.createsToArchive = true)) ∨
      (r.target = some v ∧ lastMove c₂ v r.name = some (some r.choice.takenAt)) := by
  rcases hsend with ⟨hstays, ⟨err, herr⟩ | ⟨_, hroute⟩⟩ |
    ⟨p, exec, direct, htarget, hpicks, _, hran, sp, hsp, ⟨_, htook⟩ | ⟨err, herr, _⟩⟩
  · cases herr
  · have hcopy : ∀ v, c₂.inMemory v r.name = c₁.inMemory v r.name :=
      fun v => (Migration.sameAt_of_stateOf hstays v).1
    have hnone := Round.target_none hst hst₁t hroute
    exact ⟨⟨e, (hcopy r.worker).trans hhere⟩, fun v => Or.inl ⟨hcopy v, fun ht => by simp [hnone] at ht⟩⟩
  · have hgoes := Round.target_eq hst htouch.leader hst₁t htarget hpicks
    have hthere := take_inMemory hran hsp htook
    obtain ⟨sp₀, hsp₀, hsp₀t⟩ := htouch.stateBack hsp
    have hother : ∀ v, v ≠ p → c₂.inMemory v r.name = c₁.inMemory v r.name :=
      fun v hv => (Migration.sameElsewhere_of_ranAt hran r.name v hv).1
    refine ⟨?_, fun v => ?_⟩
    · by_cases hp : r.worker = p
      · rw [hp] at hhere ⊢
        split_ifs at hthere
        · exact ⟨e, hthere.trans hhere⟩
        · exact ⟨_, hthere⟩
      · exact ⟨e, (hother r.worker hp).trans hhere⟩
    · by_cases hv : v = p
      · subst hv
        split_ifs at hthere with hcreates
        · exact Or.inl ⟨hthere, fun _ => ⟨sp₀, hsp₀, hsp₀t.creates ▸ hcreates⟩⟩
        · refine Or.inr ⟨hgoes, ?_⟩
          rw [lastMove, hthere]
          rfl
      · refine Or.inl ⟨hother v hv, fun ht => ?_⟩
        rw [hgoes] at ht
        exact absurd (Option.some.inj ht).symm hv
  · cases herr

/-- **A hand-over** that goes through: the copy is gone, and the target has it in memory with the time of its arrival,
unless it keeps entities in its archive. No other copy in memory changes. -/
theorem Round.handOver_spec {r : Round} {st : WorkerState} (hst : r.before.stateOf r.worker = some st)
    (h : r.HandsOver = true) (hok : r.result.2 = .ok ()) :
    r.result.1.inMemory r.worker r.name = none ∧
      ∀ v, v ≠ r.worker →
        (r.result.1.inMemory v r.name = r.before.inMemory v r.name ∧
          (r.target = some v → ∃ sp, r.before.stateOf v = some sp ∧ sp.createsToArchive = true)) ∨
        (r.target = some v ∧ lastMove r.result.1 v r.name = some (some r.choice.takenAt)) := by
  unfold Round.HandsOver at h
  unfold Round.result migrateEntity at hok ⊢
  have htouch := Migration.onManager_touches hst (WorkerState.getEntity_touches r.choice.now r.name)
  rcases Migration.onManager_get r.choice.now r.name hst with ⟨_, _, err, herr⟩ |
    ⟨_, e', _, hread, _, _, hhere, _, helse⟩
  · rw [herr] at h
    cases h
  · generalize onManager r.worker (WorkerState.getEntity r.choice.now r.name) r.before = res
      at hread hhere helse htouch h hok
    obtain ⟨c₁, answer⟩ := res
    simp only at hread
    subst hread
    have hwarm : coolingDown r.cooldown r.choice.now e' = false := by simpa using h
    obtain ⟨st₁, hst₁, hst₁t⟩ := htouch.state hst
    simp only [hwarm] at hok ⊢
    unfold Migration.handOver at hok ⊢
    have hsend := (Migration.send_spec r.ctx r.choice r.name e' hst₁).2
    generalize Migration.send r.worker r.ctx r.choice r.name e' c₁ = res at hsend hok
    obtain ⟨c₂, sent⟩ := res
    cases sent with
    | error err => cases hok
    | ok u =>
      obtain ⟨⟨e₂, he₂⟩, hvs⟩ := Round.send_copies hst htouch hst₁t hhere hsend
      obtain ⟨_, _, hgone, _, hkept⟩ := Migration.onManager_remove he₂
      refine ⟨hgone, fun v hv => ?_⟩
      rcases hvs v with ⟨hcopy, hcreates⟩ | ⟨ht, hmove⟩
      · exact Or.inl ⟨((hkept v hv).1.trans hcopy).trans (helse v hv).1, hcreates⟩
      · refine Or.inr ⟨ht, ?_⟩
        rw [lastMove] at hmove ⊢
        rw [← hmove]
        exact congrArg (Option.map _) (hkept v hv).1

/-! ## Clocks -/

/-- the clock of each worker is monotone over the readings, in their order, and by each worker's clock they lie within
its cooldown -/
structure Within (c : Cluster) (readings : List (WorkerId × UInt32)) : Prop where
  monotone : readings.Pairwise fun a b => a.1 = b.1 → a.2 ≤ b.2
  short : ∀ v st, c.stateOf v = some st → ∃ secs, st.config.entityMigrationCooldownSecs = some secs ∧
    ∀ a ∈ readings, ∀ b ∈ readings, a.1 = v → b.1 = v → b.2.toNat ≤ a.2.toNat + secs.toNat

theorem Within.step {r : Round} {c : Cluster} {readings : List (WorkerId × UInt32)} (h : Within c readings)
    (hstarts : r.Starts c) : Within r.result.1 readings := by
  refine ⟨h.monotone, fun v st' hst' => ?_⟩
  obtain ⟨st₀, hst₀, _⟩ := hstarts.config
  have htouch := Migration.migrateEntity_touches r.cooldown r.ctx r.name r.choice ((hstarts.states _).trans hst₀)
  obtain ⟨st, hst, ht⟩ := htouch.stateBack hst'
  rw [ht.config]
  exact h.short v st ((hstarts.states v).symm.trans hst)

/-- a copy that moved at a time the clock has shown is cooling down -/
theorem Within.cools {c : Cluster} {past rest : List (WorkerId × UInt32)} {w : WorkerId} {now t : UInt32}
    {st : WorkerState} {e : Entity} (h : Within c (past ++ (w, now) :: rest)) (hst : c.stateOf w = some st)
    (hmoved : e.meta_.lastMoved = some t) (ht : (w, t) ∈ past) :
    coolingDown st.config.entityMigrationCooldownSecs now e = true := by
  obtain ⟨secs, hsecs, hshort⟩ := h.short w st hst
  have hle : t ≤ now := (List.pairwise_append.mp h.monotone).2.2 (w, t) ht (w, now) List.mem_cons_self rfl
  have hspan : now.toNat ≤ t.toNat + secs.toNat := hshort (w, t) (List.mem_append_left _ ht) (w, now)
    (List.mem_append_right _ List.mem_cons_self) rfl rfl
  have hdiff : (now - t).toNat = now.toNat - t.toNat := UInt32.toNat_sub_of_le now t hle
  simp only [coolingDown, hsecs, hmoved, decide_eq_true_eq, UInt32.le_iff_toNat_le, hdiff]
  omega

/-! ## Counting -/

/-- the workers with a copy of the entity in memory -/
def copies (c : Cluster) (x : EntityName) : Finset WorkerId := c.workers.keys.filter fun v => (c.inMemory v x).isSome

/-- those whose copy did not arrive at one of these readings -/
def fresh (past : List (WorkerId × UInt32)) (c : Cluster) (x : EntityName) : Finset WorkerId :=
  c.workers.keys.filter fun v => (lastMove c v x).any fun moved => moved.all fun t => (v, t) ∉ past

theorem mem_fresh {past : List (WorkerId × UInt32)} {c : Cluster} {x : EntityName} {v : WorkerId} :
    v ∈ fresh past c x ↔ ∃ moved, lastMove c v x = some moved ∧ ∀ t, moved = some t → (v, t) ∉ past := by
  have hkeys : ∀ moved, lastMove c v x = some moved → v ∈ c.workers.keys := by
    intro moved hmoved
    obtain ⟨e, he, _⟩ := Option.map_eq_some_iff.mp hmoved
    have hcopy : c.copyOf v x = some e := by
      rw [Cluster.copyOf_eq, he]
      rfl
    exact Cluster.mem_keys_of_copyOf hcopy
  simp only [fresh, Finset.mem_filter, Option.any_eq_true, Option.all_eq_true, decide_eq_true_eq]
  exact ⟨And.right, fun ⟨moved, hmoved, hnot⟩ => ⟨hkeys moved hmoved, moved, hmoved, hnot⟩⟩

theorem fresh_nil (c : Cluster) (x : EntityName) : fresh [] c x = copies c x := by
  unfold fresh copies
  refine Finset.filter_congr fun v _ => ?_
  unfold lastMove
  cases c.inMemory v x with
  | none => simp
  | some e => cases e.meta_.lastMoved <;> simp

/-- where the times of the last moves are the same, or there is no copy, or it arrived since, nothing gets fresh -/
theorem fresh_subset {past now : List (WorkerId × UInt32)} {c c' : Cluster} {x : EntityName}
    (h : ∀ v, lastMove c' v x = lastMove c v x ∨ lastMove c' v x = none ∨
      ∃ t, lastMove c' v x = some (some t) ∧ (v, t) ∈ now) : fresh (past ++ now) c' x ⊆ fresh past c x := by
  intro v hv
  obtain ⟨moved, hmoved, hnot⟩ := mem_fresh.1 hv
  rcases h v with hsame | hnone | ⟨t, ht, hin⟩
  · exact mem_fresh.2 ⟨moved, hsame ▸ hmoved, fun t ht hin => hnot t ht (List.mem_append_left _ hin)⟩
  · rw [hnone] at hmoved
    cases hmoved
  · obtain rfl : moved = some t := Option.some.inj (hmoved.symm.trans ht)
    exact absurd (List.mem_append_right _ hin) (hnot t rfl)

theorem lastMove_congr {c c' : Cluster} (h : ∀ v, c'.stateOf v = c.stateOf v) (v : WorkerId) (x : EntityName) :
    lastMove c' v x = lastMove c v x := by
  simp only [lastMove, Cluster.inMemory, h]

/-- a hand-over is of a copy in memory that is not cooling down -/
theorem Round.handsOver_copy {r : Round} {st : WorkerState} (hst : r.before.stateOf r.worker = some st)
    (h : r.HandsOver = true) :
    ∃ e, r.before.inMemory r.worker r.name = some e ∧ coolingDown r.cooldown r.choice.now e = false := by
  unfold Round.HandsOver at h
  rcases Migration.onManager_get r.choice.now r.name hst with ⟨_, _, err, herr⟩ | ⟨e, e', he, hread, _, hmoved, _⟩
  · rw [herr] at h
    cases h
  · rw [hread] at h
    refine ⟨e, he, ?_⟩
    have hsame : coolingDown r.cooldown r.choice.now e = coolingDown r.cooldown r.choice.now e' := by
      simp only [coolingDown, hmoved]
    rw [hsame]
    simpa using h

/-- only fresh copies are handed over -/
theorem Round.handsOver_fresh {r : Round} {c : Cluster} {past rest : List (WorkerId × UInt32)} (hstarts : r.Starts c)
    (hin : Within c (past ++ (r.readings ++ rest))) (h : r.HandsOver = true) : r.worker ∈ fresh past c r.name := by
  obtain ⟨st, hst, hconfig⟩ := hstarts.config
  have hst' : r.before.stateOf r.worker = some st := (hstarts.states r.worker).trans hst
  obtain ⟨e, he, hwarm⟩ := Round.handsOver_copy hst' h
  have hmove : lastMove c r.worker r.name = some e.meta_.lastMoved := by
    rw [← lastMove_congr hstarts.states, lastMove, he, Option.map_some]
  refine mem_fresh.2 ⟨_, hmove, fun t ht hpast => ?_⟩
  unfold Round.readings at hin
  rw [List.cons_append] at hin
  rw [← hconfig, hin.cools hst ht hpast] at hwarm
  cases hwarm

/-- **One round** gives no worker a fresh copy, and a hand-over that goes through leaves its worker without one; so it
leaves the target, unless that keeps entities in its archive. -/
theorem Round.fresh_step {r : Round} {c : Cluster} (past : List (WorkerId × UInt32)) (hstarts : r.Starts c)
    (hok : r.HandsOver = true → r.result.2 = .ok ()) (x : EntityName) :
    fresh (past ++ r.readings) r.result.1 x ⊆ fresh past c x ∧
      (r.HandsOver = true → r.worker ∉ fresh (past ++ r.readings) r.result.1 r.name ∧
        ∀ p, r.target = some p → p ∈ fresh (past ++ r.readings) r.result.1 r.name →
          ∃ sp, r.before.stateOf p = some sp ∧ sp.createsToArchive = true) := by
  obtain ⟨st, hst, _⟩ := hstarts.config
  have hst' : r.before.stateOf r.worker = some st := (hstarts.states r.worker).trans hst
  have hstart : ∀ v y, lastMove r.before v y = lastMove c v y := lastMove_congr hstarts.states
  have hother : x ≠ r.name → ∀ v, lastMove r.result.1 v x = lastMove c v x := by
    intro hx v
    rw [← hstart, lastMove, lastMove, Round.other_spec hst' hx v]
  cases hover : r.HandsOver with
  | false =>
    refine ⟨fresh_subset fun v => Or.inl ?_, fun h => by cases h⟩
    by_cases hx : x = r.name
    · rw [hx, Round.rest_spec hst' hover v, hstart]
    · exact hother hx v
  | true =>
    obtain ⟨hgone, hrest⟩ := Round.handOver_spec hst' hover (hok hover)
    have hnone : lastMove r.result.1 r.worker r.name = none := by rw [lastMove, hgone, Option.map_none]
    have harrives : ∀ v, r.target = some v → (v, r.choice.takenAt) ∈ r.readings := by
      intro v hv
      simp [Round.readings, hover, hv]
    refine ⟨fresh_subset fun v => ?_, fun _ => ⟨fun hmem => ?_, fun p hp hmem => ?_⟩⟩
    · by_cases hx : x = r.name
      · subst hx
        by_cases hv : v = r.worker
        · exact Or.inr (Or.inl (hv ▸ hnone))
        · rcases hrest v hv with ⟨hsame, _⟩ | ⟨ht, hmove⟩
          · exact Or.inl (by rw [← hstart, lastMove, lastMove, hsame])
          · exact Or.inr (Or.inr ⟨_, hmove, harrives v ht⟩)
      · exact Or.inl (hother hx v)
    · obtain ⟨moved, hmoved, _⟩ := mem_fresh.1 hmem
      rw [hnone] at hmoved
      cases hmoved
    · obtain ⟨moved, hmoved, hnot⟩ := mem_fresh.1 hmem
      by_cases hv : p = r.worker
      · rw [hv, hnone] at hmoved
        cases hmoved
      · rcases hrest p hv with ⟨_, hcreates⟩ | ⟨ht, hmove⟩
        · exact hcreates hp
        · rw [hmove] at hmoved
          exact absurd (List.mem_append_right _ (harrives p ht)) (hnot _ (Option.some.inj hmoved).symm)

/-- what is handed over during the rounds was fresh at their start -/
theorem handsOver_fresh {rs : List Round} {c : Cluster} {past : List (WorkerId × UInt32)} (h : Chained c rs)
    (hin : Within c (past ++ rs.flatMap Round.readings)) {r : Round} (hr : r ∈ rs) (hover : r.HandsOver = true) :
    r.worker ∈ fresh past c r.name := by
  induction rs generalizing c past with
  | nil => cases hr
  | cons r₀ rs ih =>
    obtain ⟨hstarts, hok, hrest⟩ := h
    rw [List.flatMap_cons] at hin
    rcases List.mem_cons.mp hr with rfl | hr
    · exact Round.handsOver_fresh hstarts hin hover
    · have hstep := Round.fresh_step past hstarts (fun _ => hok (List.ne_nil_of_mem hr)) r.name
      rw [← List.append_assoc] at hin
      exact hstep.1 (ih hrest (hin.step hstarts) hr)

/-- each copy is handed over once at most -/
theorem handsOver_le {rs : List Round} {c : Cluster} {past : List (WorkerId × UInt32)} (h : Chained c rs)
    (hin : Within c (past ++ rs.flatMap Round.readings)) (x : EntityName) :
    (rs.countP fun r => r.name = x ∧ r.HandsOver = true) ≤ (fresh past c x).card := by
  induction rs generalizing c past with
  | nil => exact Nat.zero_le _
  | cons r rs ih =>
    obtain ⟨hstarts, hok, hrest⟩ := h
    have hin₀ := hin
    rw [List.flatMap_cons] at hin₀
    have hin₁ := hin₀
    rw [← List.append_assoc] at hin₁
    have htail := ih hrest (hin₁.step hstarts)
    by_cases hcount : r.name = x ∧ r.HandsOver = true
    · obtain ⟨rfl, hover⟩ := hcount
      have hmem := Round.handsOver_fresh hstarts hin₀ hover
      rw [List.countP_cons_of_pos (by simpa using hover)]
      by_cases hlast : rs = []
      · subst hlast
        exact Finset.card_pos.mpr ⟨_, hmem⟩
      · obtain ⟨hsub, hgone⟩ := Round.fresh_step past hstarts (fun _ => hok hlast) r.name
        calc (rs.countP fun r' => r'.name = r.name ∧ r'.HandsOver = true) + 1
            ≤ (fresh (past ++ r.readings) r.result.1 r.name).card + 1 := Nat.add_le_add_right htail 1
          _ ≤ ((fresh past c r.name).erase r.worker).card + 1 := by
              refine Nat.add_le_add_right (Finset.card_le_card ?_) 1
              exact Finset.subset_erase.mpr ⟨hsub, (hgone hover).1⟩
          _ = (fresh past c r.name).card := Finset.card_erase_add_one hmem
    · rw [List.countP_cons_of_neg (by simpa using hcount)]
      by_cases hlast : rs = []
      · subst hlast
        exact Nat.zero_le _
      · exact htail.trans (Finset.card_le_card (Round.fresh_step past hstarts (fun _ => hok hlast) x).1)

/-- what a worker takes it does not hand on -/
theorem handsOver_pairwise {rs : List Round} {c : Cluster} {past : List (WorkerId × UInt32)} (h : Chained c rs)
    (hin : Within c (past ++ rs.flatMap Round.readings)) :
    rs.Pairwise fun r r' => r.HandsOver = true → r'.HandsOver = true → r'.name = r.name →
      r.target = some r'.worker → ∃ sp, r.before.stateOf r'.worker = some sp ∧ sp.createsToArchive = true := by
  induction rs generalizing c past with
  | nil => exact List.Pairwise.nil
  | cons r rs ih =>
    obtain ⟨hstarts, hok, hrest⟩ := h
    rw [List.flatMap_cons, ← List.append_assoc] at hin
    have hin₁ := hin.step hstarts
    refine List.Pairwise.cons (fun r' hr' hover hover' hname htarget => ?_) (ih hrest hin₁)
    have hmem := handsOver_fresh hrest hin₁ hr' hover'
    rw [hname] at hmem
    have hstep := Round.fresh_step past hstarts (fun _ => hok (List.ne_nil_of_mem hr')) r.name
    exact (hstep.2 hover).2 r'.worker htarget hmem

/-- **At most one move per reorganization.** During a reorganization that ends within the cooldown of every worker by
that worker's own monotone clock, no entity is handed over more often than there are copies of it in memory at the
start, and an entity that a worker has taken into its memory is not handed on. -/
theorem at_most_one_move (ctx : Context) (turns : List Turn) (c : Cluster)
    (h : Within c ((rounds ctx turns c).flatMap Round.readings)) :
    (∀ x, ((rounds ctx turns c).countP fun r => r.name = x ∧ r.HandsOver = true) ≤ (copies c x).card) ∧
      (rounds ctx turns c).Pairwise fun r r' => r.HandsOver = true → r'.HandsOver = true → r'.name = r.name →
        r.target = some r'.worker → ∃ sp, r.before.stateOf r'.worker = some sp ∧ sp.createsToArchive = true := by
  have hchained := reorganize_chained ctx turns c
  refine ⟨fun x => ?_, @handsOver_pairwise _ c [] hchained h⟩
  rw [← fresh_nil]
  exact @handsOver_le _ c [] hchained h x

/-! ## A ball between two workers -/

/-- two workers that are registered with the leader and are local peers; the first one holds the ball -/
def registeredPair : Cluster where
  leader := ⟨none, Finmap.insert 0 .local (Finmap.singleton 1 .local)⟩
  workers := Migration.pair.workers

/-- the first worker is asked at second 10, the second one two seconds later -/
def bothTurns : List Turn :=
  [⟨0, .delivered, 0, [("ball", .sure 1 10)]⟩, ⟨1, .delivered, 0, [("ball", .sure 0 12)]⟩]

theorem registeredPair_config {v : WorkerId} {st : WorkerState} (h : registeredPair.stateOf v = some st) :
    st.config.entityMigrationCooldownSecs = some 3 := by
  obtain ⟨n, hn, rfl⟩ := Option.map_eq_some_iff.mp h
  have hv : v ∈ ({0, 1} : Finset WorkerId) := FnvHashMap.mem_keys hn
  simp only [Finset.mem_insert, Finset.mem_singleton] at hv
  rcases hv with rfl | rfl
  · obtain rfl := Option.some.inj hn
    rfl
  · obtain rfl := Option.some.inj hn
    rfl

/-- the ball goes to the second worker, which does not send it back -/
theorem ball_moves_once :
    ((rounds Migration.viaLeader bothTurns registeredPair).countP fun r =>
      r.name = "ball" ∧ r.HandsOver = true) ≤ 1 := by
  have hreadings : (rounds Migration.viaLeader bothTurns registeredPair).flatMap Round.readings =
      [(0, 10), (1, 10), (1, 12)] := by decide
  have hcopies : (copies registeredPair "ball").card = 1 := by decide
  have hshort : ∀ a ∈ ([(0, 10), (1, 10), (1, 12)] : List (WorkerId × UInt32)),
      ∀ b ∈ ([(0, 10), (1, 10), (1, 12)] : List (WorkerId × UInt32)), b.2.toNat ≤ a.2.toNat + 3 := by decide
  have hwithin : Within registeredPair [(0, 10), (1, 10), (1, 12)] := by
    refine ⟨by decide, fun v st hst => ⟨3, registeredPair_config hst, ?_⟩⟩
    exact fun a ha b hb _ _ => hshort a ha b hb
  rw [← hcopies]
  exact (at_most_one_move Migration.viaLeader bothTurns registeredPair (hreadings ▸ hwithin)).1 "ball"

end BigWorlds.Leader
