/-
Removing an entity from the whole cluster (`leader/mod.rs`, `RemoveEntity`, and `Partition::remove_entity`).

The leader asks its workers one after another and stops at the first `Ok`. A worker whose archive is on answers `Ok`
also for an entity it does not have, because removing an absent key from the archive succeeds; and a worker that has
the entity both in memory and in its archive removes the copy in memory only.

- `Cleared`: a worker is asked before the loop stops, the request arrives, and it holds a single copy;
- `removeLoop_holds`: a worker holds the entity after the loop exactly if it did before and was not cleared;
- `removal_everywhere_iff`: the entity is gone from the whole cluster exactly when every holder is cleared;
- `absent_archive_stops_removal`: a worker that never had the entity ends the loop.
-/
import BigWorlds.Cluster.Names

namespace BigWorlds.Removal

open BigWorlds.Core (Exec Fate)
open Cluster (Accepts RanAt Handler)
open Leader (Env request removeLoop holds_iff StateRel Reaches Hears SameAt ComesTo comesTo_nil comesTo_cons
  comesTo_congr)
open Names (EachOnce)

/-! ## The condition -/

/-- what `remove_entity` answers with `Ok`: a copy in memory, or any archive -/
def RemovesOk (st : WorkerState) (x : EntityName) : Prop :=
  (st.inMemory x).isSome = true ∨ st.part.map (·.archive.isSome) = some true

/-- the leader's loop ends at this worker -/
def Stops (x : EntityName) (c : Cluster) (p : WorkerId × Env) : Prop :=
  Reaches c p.1 p.2 ∧ Hears c p.1 p.2 ∧ ∃ st, c.stateOf p.1 = some st ∧ RemovesOk st x

/-- a copy in memory and one in the archive -/
def Twice (c : Cluster) (v : WorkerId) (x : EntityName) : Prop :=
  (c.inMemory v x).isSome = true ∧ (c.archived v x).isSome = true

/-- worker `v` is asked before the loop ends, the request arrives, and it does not hold two copies -/
def Cleared (x : EntityName) (c : Cluster) (visit : List (WorkerId × Env)) (v : WorkerId) : Prop :=
  ∃ env, ComesTo (Stops x c) visit (v, env) ∧ Reaches c v env ∧ ¬ Twice c v x

/-! ## One worker -/

/-- what a removal at worker `r` does and what the leader hears of it -/
structure Asked (x : EntityName) (c : Cluster) (p : WorkerId × Env) (res : Cluster × Except Error Unit) : Prop where
  leader : res.1.leader = c.leader
  elsewhere : ∀ v, v ≠ p.1 → res.1.workers.lookup v = c.workers.lookup v
  here : res.1.Holds p.1 x ↔ c.Holds p.1 x ∧ ¬ (Reaches c p.1 p.2 ∧ ¬ Twice c p.1 x)
  stops : res.2 = .ok () ↔ Stops x c p

theorem removeEntity_ok_iff (x : EntityName) (st : WorkerState) :
    (WorkerState.removeEntity x st).2 = .ok () ↔ RemovesOk st x := by
  unfold WorkerState.removeEntity RemovesOk
  cases hp : st.part with
  | none => simp [WorkerState.inMemory, hp]
  | some part =>
    simp only [WorkerState.inMemory, hp, Option.bind_some, Option.map_some, Option.some.injEq]
    rcases Partition.removeEntity_cases part x with ⟨hm, hr⟩ | ⟨hm, ha, hr⟩ | ⟨a, hm, ha, hr⟩
    · simp [hr, Finmap.lookup_isSome.mpr hm]
    · simp [hr, ha, Finmap.lookup_eq_none.mpr hm]
    · simp [hr, ha]

/-- a removal leaves the entity behind exactly where there are two copies -/
theorem removeEntity_leaves_iff (x : EntityName) (st : WorkerState) :
    (WorkerState.removeEntity x st).1.Holds x ↔
      (st.inMemory x).isSome = true ∧ (st.archived x).isSome = true := by
  unfold WorkerState.removeEntity
  cases hp : st.part with
  | none => simp [WorkerState.Holds, WorkerState.copyOf, WorkerState.inMemory, WorkerState.archived, hp]
  | some part =>
    simp only [WorkerState.Holds, WorkerState.copyOf, WorkerState.inMemory, WorkerState.archived, hp, Option.bind_some]
    rcases Partition.removeEntity_cases part x with ⟨hm, hr⟩ | ⟨hm, ha, hr⟩ | ⟨a, hm, ha, hr⟩
    · simp [hr, Partition.archived, Finmap.lookup_isSome.mpr hm]
    · simp [hr, Partition.archived, ha, Finmap.lookup_eq_none.mpr hm]
    · simp [hr, Partition.archived, Finmap.lookup_eq_none.mpr hm]

theorem request_asked (x : EntityName) (c : Cluster) (p : WorkerId × Env) :
    Asked x c p (request p.2 p.1 (WorkerState.removeEntity x) c) := by
  have hl := (Leader.request_spec p.2 p.1 (WorkerState.removeEntity x) c).leader
  have helse := fun v (hv : v ≠ p.1) => Leader.request_elsewhere p.2 hv (WorkerState.removeEntity x) c
  by_cases hr : Reaches c p.1 p.2
  · obtain ⟨hran, st, hst, hok⟩ := Leader.request_reached hr (WorkerState.removeEntity x)
    obtain ⟨st₀, hst₀, hst'⟩ := hran.here
    obtain rfl := Option.some.inj (hst₀.symm.trans hst)
    have hleaves := removeEntity_leaves_iff x st₀
    refine ⟨hl, helse, ?_, ?_⟩
    · simp only [holds_iff, hst', hst, Option.some.injEq, exists_eq_left', hleaves, hr, true_and, not_not, Twice,
        Cluster.inMemory, Cluster.archived, Option.bind_some]
      constructor
      · rintro ⟨hm, ha⟩
        refine ⟨?_, hm, ha⟩
        obtain ⟨e, he⟩ := Option.isSome_iff_exists.mp hm
        simp [WorkerState.Holds, WorkerState.copyOf, he]
      · exact fun h => h.2
    · rw [hok, removeEntity_ok_iff]
      simp [Stops, hr, hst]
  · obtain ⟨hsame, err, herr⟩ := Leader.request_lost hr (WorkerState.removeEntity x)
    refine ⟨hl, helse, ?_, ?_⟩
    · simp [holds_iff, hsame, hr]
    · simp [herr, Stops, hr]

/-! ## The loop -/

theorem twice_congr {v : WorkerId} {c c' : Cluster} (h : SameAt v c c') (x : EntityName) :
    Twice c' v x ↔ Twice c v x := by
  simp only [Twice, Cluster.inMemory, Cluster.archived, h.stateOf]

theorem stops_congr {p : WorkerId × Env} {c c' : Cluster} (h : SameAt p.1 c c') (x : EntityName) :
    Stops x c' p ↔ Stops x c p := by
  simp only [Stops, h.reaches, h.hears, h.stateOf]

theorem cleared_nil (x : EntityName) (c : Cluster) (v : WorkerId) : ¬ Cleared x c [] v := by
  rintro ⟨env, h, -⟩
  exact comesTo_nil _ _ h

theorem cleared_cons (x : EntityName) (c : Cluster) (p : WorkerId × Env) (rest : List (WorkerId × Env))
    (v : WorkerId) :
    Cleared x c (p :: rest) v ↔
      (p.1 = v ∧ Reaches c v p.2 ∧ ¬ Twice c v x) ∨ (¬ Stops x c p ∧ Cleared x c rest v) := by
  simp only [Cleared, comesTo_cons]
  constructor
  · rintro ⟨env, rfl | ⟨hp, hc⟩, hr, ht⟩
    · exact .inl ⟨rfl, hr, ht⟩
    · exact .inr ⟨hp, env, hc, hr, ht⟩
  · rintro (⟨rfl, hr, ht⟩ | ⟨hp, env, hc, hr, ht⟩)
    · exact ⟨p.2, .inl rfl, hr, ht⟩
    · exact ⟨env, .inr ⟨hp, hc⟩, hr, ht⟩

theorem cleared_congr {x : EntityName} {c c' : Cluster} {visit : List (WorkerId × Env)} {v : WorkerId}
    (h : ∀ p ∈ visit, SameAt p.1 c c') : Cleared x c' visit v ↔ Cleared x c visit v := by
  refine exists_congr fun env => ?_
  rw [comesTo_congr fun q hq => stops_congr (h q hq) x]
  refine and_congr_right fun hc => ?_
  have hv := h (v, env) hc.mem
  rw [hv.reaches, twice_congr hv]

/-- **What the loop leaves.** When no worker is asked twice, a worker holds the entity afterwards exactly if it did
before and was not cleared. -/
theorem removeLoop_holds {x : EntityName} {visit : List (WorkerId × Env)} (hnd : (visit.map Prod.fst).Nodup)
    (c : Cluster) (v : WorkerId) :
    (removeLoop x visit c).Holds v x ↔ c.Holds v x ∧ ¬ Cleared x c visit v := by
  induction visit generalizing c with
  | nil => simp [removeLoop, cleared_nil]
  | cons p rest ih =>
    obtain ⟨hp, hrest⟩ := List.nodup_cons.mp hnd
    have hask := request_asked x c p
    have hsame : ∀ u, u ≠ p.1 → SameAt u c (request p.2 p.1 (WorkerState.removeEntity x) c).1 :=
      fun u hu => ⟨hask.leader, hask.elsewhere u hu⟩
    have hhere : (request p.2 p.1 (WorkerState.removeEntity x) c).1.Holds v x ↔
        c.Holds v x ∧ ¬ (p.1 = v ∧ Reaches c v p.2 ∧ ¬ Twice c v x) := by
      by_cases hv : v = p.1
      · subst hv
        simpa using hask.here
      · rw [(hsame v hv).holds]
        exact ⟨fun h => ⟨h, fun hh => hv hh.1.symm⟩, fun h => h.1⟩
    have hcongr : Cleared x (request p.2 p.1 (WorkerState.removeEntity x) c).1 rest v ↔ Cleared x c rest v := by
      refine cleared_congr fun q hq => hsame q.1 fun he => hp ?_
      exact he ▸ List.mem_map_of_mem hq
    rw [cleared_cons, not_or, ← and_assoc, ← hhere]
    have hstops := hask.stops
    unfold removeLoop
    generalize request p.2 p.1 (WorkerState.removeEntity x) c = res at hstops hcongr
    obtain ⟨c₁, ans⟩ := res
    cases ans with
    | ok u => simp [hstops.mp rfl]
    | error err =>
      have hns : ¬ Stops x c p := fun hs => by cases hstops.mpr hs
      simp only at hcongr
      simp [hns, ih hrest c₁, hcongr]

/-- the other entities stay -/
theorem removeLoop_touches (x : EntityName) (visit : List (WorkerId × Env)) (c : Cluster) :
    StateRel (WorkerState.Touches x) c (removeLoop x visit c) := by
  induction visit generalizing c with
  | nil => exact StateRel.refl (WorkerState.Touches.refl x) c
  | cons p rest ih =>
    have hrel := (Leader.request_spec p.2 p.1 (WorkerState.removeEntity x) c).rel (WorkerState.Touches.refl x)
      (WorkerState.removeEntity_touches x)
    unfold removeLoop
    generalize request p.2 p.1 (WorkerState.removeEntity x) c = res at hrel
    obtain ⟨c₁, ans⟩ := res
    cases ans with
    | ok u => exact hrel
    | error err => exact hrel.trans (fun s t u => WorkerState.Touches.trans (s := s) (t := t) (u := u)) (ih c₁)

/-! ## The whole cluster -/

/-- entity `x` is gone from every worker, and the other entities are unchanged -/
structure Removed (x : EntityName) (c c' : Cluster) : Prop where
  gone : ∀ v, ¬ c'.Holds v x
  others : ∀ v y, y ≠ x → c'.inMemory v y = c.inMemory v y ∧ c'.archived v y = c.archived v y

theorem removeLoop_others (x : EntityName) (visit : List (WorkerId × Env)) (c : Cluster) (v : WorkerId)
    {y : EntityName} (hy : y ≠ x) :
    (removeLoop x visit c).inMemory v y = c.inMemory v y ∧ (removeLoop x visit c).archived v y = c.archived v y := by
  have h := removeLoop_touches x visit c v
  simp only [Cluster.inMemory, Cluster.archived]
  cases hst : c.stateOf v <;> cases hst' : (removeLoop x visit c).stateOf v <;> rw [hst, hst'] at h
  · exact ⟨rfl, rfl⟩
  · cases h
  · cases h
  · cases h with
    | some ht => exact ⟨ht.inMemory y hy, ht.archived y hy⟩

/-- **When a removal reaches the whole cluster.** The leader always answers `Ok`. Then the entity is gone from every
worker and the others are unchanged exactly when every worker that held it was asked before the loop stopped, got the
request, and held one copy only. -/
theorem removal_everywhere_iff (x : EntityName) (visit : List (WorkerId × Env)) (c : Cluster)
    (h : EachOnce c (visit.map Prod.fst)) :
    ((Leader.removeEntity x visit c).2 = .ok () → Removed x c (Leader.removeEntity x visit c).1) ↔
      ∀ v, c.Holds v x → Cleared x c visit v := by
  have hnd := h.nodup
  simp only [Leader.removeEntity, true_implies]
  constructor
  · intro hr v hv
    by_contra hc
    exact hr.gone v ((removeLoop_holds hnd c v).mpr ⟨hv, hc⟩)
  · intro hc
    refine ⟨fun v hv => ?_, fun v y hy => removeLoop_others x visit c v hy⟩
    obtain ⟨hold, hncl⟩ := (removeLoop_holds hnd c v).mp hv
    exact hncl (hc v hold)

/-- a worker of the leader as configured by default, with an archive -/
def archiving (held : FnvHashMap EntityName Entity) : WorkerNode where
  state :=
    { config := .default
      model := some ⟨[], [], [], []⟩
      part := some { Partition.new .default ∅ with entities := held }
      disk := ∅
      leader := .connected .local
      otherWorkers := ∅ }
  seen := ∅

/-- two workers, the second has the ball -/
def ballOnSecond : Cluster where
  leader := ⟨none, Finmap.insert 0 .local (Finmap.singleton 1 .local)⟩
  workers := Finmap.insert 0 (archiving ∅) (Finmap.singleton 1 (archiving (Finmap.singleton "ball" .empty)))

/-- asked first, the holder removes it -/
theorem removal_holder_first :
    Removed "ball" ballOnSecond (Leader.removeEntity "ball" [(1, Names.sure 2), (0, Names.sure 3)] ballOnSecond).1 := by
  refine (removal_everywhere_iff "ball" [(1, Names.sure 2), (0, Names.sure 3)] ballOnSecond (by decide)).mpr ?_ rfl
  intro v hv
  obtain ⟨e, he⟩ := Option.isSome_iff_exists.mp hv
  have hv1 : ∀ u ∈ ballOnSecond.workers.keys, ballOnSecond.Holds u "ball" → u = 1 := by decide
  obtain rfl := hv1 v (Cluster.mem_keys_of_copyOf he) hv
  refine ⟨Names.sure 2, (comesTo_cons _ _ _ _).mpr (.inl rfl), ?_, ?_⟩
  · exact ⟨.local, by decide, ⟨_, rfl, by decide⟩, nofun⟩
  · exact fun ht => absurd ht.2 (by decide)

/-- **The entity survives.** The first worker never had the ball, but its archive is on: it answers `Ok` and the worker
that has the ball is not asked. -/
theorem absent_archive_stops_removal :
    ¬ ∀ (x : EntityName) (visit : List (WorkerId × Env)) (c : Cluster), EachOnce c (visit.map Prod.fst) →
      (Leader.removeEntity x visit c).2 = .ok () → Removed x c (Leader.removeEntity x visit c).1 := by
  intro h
  have hgone := (h "ball" [(0, Names.sure 2), (1, Names.sure 3)] ballOnSecond (by decide) rfl).gone 1
  exact hgone (by decide)

end BigWorlds.Removal
