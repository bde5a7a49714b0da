/-
`SetVars` requests that race with a migration: the worker's manager takes one message at a time, so writes land
between the three messages of every round of `MigrateEntities` (read, `TakeEntity` at the target, removal).

The state is the cluster, where the handler stands (`Pc`), and a ghost log of the writes that count: of a `SetVars`
answered `Ok`, its pairs about entities the worker held; of a failed one, the pairs applied before the failing one.
One operation is one `SetVars` or the next message of the handler.

The handler sends the copy it read, and nothing holds writes off until the removal: `acknowledged_write_lost` writes
between reading and sending.

- `Spared`: the condition on a step. A `SetVars` names no entity that is between its reading and its removal, and none
  that the worker holds in its archive only, where writes are passed over; an entity is sent only when it is safe to
  hand over to the target picked (`Migration.SafeWith`);
- `writes_survive`: in every run whose steps all meet the condition, once the handler has finished, each variable has
  the last value written to it in the single copy of its entity;
- `run_next_migrate`: without `SetVars` in between, the messages one by one do what `migrateEntities` does.
-/
import BigWorlds.Cluster.Conservation
import BigWorlds.Core.Run

namespace BigWorlds.MigrationRace

open BigWorlds.Core (run Along)
open Migration

/-! ## Model -/

/-- where the handler of `MigrateEntities` stands -/
inductive Pc where
  | idle
  | loop (rest : List (EntityName × Choice))
  /-- the entity was read -/
  | got (x : EntityName) (ch : Choice) (e : Entity) (rest : List (EntityName × Choice))
  /-- sending it was answered `Ok` -/
  | sent (x : EntityName) (rest : List (EntityName × Choice))
  | finished (answer : Except Error Unit)

structure St where
  cluster : Cluster
  cooldown : Option UInt32
  pc : Pc
  /-- ghost: the writes that count, in the order they were handled -/
  log : List (Address × Var)

inductive Op where
  | setVars (pairs : List (Address × Var))
  /-- the handler starts: `GetEntities` answers these names -/
  | list (listed : List (EntityName × Choice))
  /-- the next message of the handler -/
  | next

/-- the pairs written, up to the first that fails -/
def applied : List (Address × Var) → WorkerState → List (Address × Var)
  | [], _ => []
  | (address, var) :: pairs, st =>
    match WorkerState.setVar address var st with
    | (st', .ok ()) => (if (st.inMemory address.entity).isSome then [(address, var)] else []) ++ applied pairs st'
    | (_, .error _) => []

/-- the writes of one request that count -/
def writes (pairs : List (Address × Var)) (st : WorkerState) : List (Address × Var) :=
  match (WorkerState.setVars pairs st).2 with
  | .ok () => pairs.filter fun p => (st.copyOf p.1.entity).isSome
  | .error _ => applied pairs st

def next (w : WorkerId) (ctx : Context) (s : St) : St :=
  match s.pc with
  | .idle | .finished _ => s
  | .loop [] => { s with pc := .finished (.ok ()) }
  | .loop ((x, ch) :: rest) =>
    match onManager w (WorkerState.getEntity ch.now x) s.cluster with
    | (c, .error err) => { s with cluster := c, pc := .finished (.error err) }
    | (c, .ok e) =>
      { s with cluster := c, pc := if coolingDown s.cooldown ch.now e then .loop rest else .got x ch e rest }
  | .got x ch e rest =>
    match send w ctx ch x e s.cluster with
    | (c, .error err) => { s with cluster := c, pc := .finished (.error err) }
    | (c, .ok ()) => { s with cluster := c, pc := .sent x rest }
  | .sent x rest =>
    match onManager w (WorkerState.removeEntity x) s.cluster with
    | (c, .error err) => { s with cluster := c, pc := .finished (.error err) }
    | (c, .ok ()) => { s with cluster := c, pc := .loop rest }

def step (w : WorkerId) (ctx : Context) (s : St) : Op → St
  | .setVars pairs =>
    match s.cluster.stateOf w with
    | none => s
    | some st =>
      { s with
        cluster := (onManager w (WorkerState.setVars pairs) s.cluster).1
        log := s.log ++ writes pairs st }
  | .list listed =>
    match s.pc, s.cluster.stateOf w with
    | .idle, some st =>
      if st.part = none then { s with pc := .finished (.error WorkerState.noPartition) }
      else if st.Listing (listed.map Prod.fst) then
        { s with cooldown := st.config.entityMigrationCooldownSecs, pc := .loop listed }
      else s
    | _, _ => s
  | .next => next w ctx s

def start (c : Cluster) : St := ⟨c, none, .idle, []⟩

/-! ## What is to hold -/

/-- the last value written to a variable -/
def lastWrite (log : List (Address × Var)) (y : EntityName) (idx : StorageIndex) : Option Var :=
  (log.reverse.find? fun p => p.1.entity = y ∧ p.1.toLocal.asStorageIndex = idx).map Prod.snd

/-- every written variable has its last value in the single copy of its entity -/
def Reflected (s : St) : Prop :=
  ∀ y idx val, lastWrite s.log y idx = some val →
    ∃ v e, HeldOnce s.cluster v y ∧ s.cluster.copyOf v y = some e ∧ e.storage.map.lookup idx = some val

/-! ## The condition -/

/-- the entity whose hand-over is under way -/
def Pc.underWay : Pc → Option EntityName
  | .got x _ _ _ => some x
  | .sent x _ => some x
  | _ => none

/-- **The condition on a step.** -/
def Spared (w : WorkerId) (ctx : Context) (s : St) : Op → Prop
  | .setVars pairs => ∀ p ∈ pairs, s.pc.underWay ≠ some p.1.entity ∧
      ((s.cluster.inMemory w p.1.entity).isSome = true ∨ s.cluster.copyOf w p.1.entity = none)
  | .list _ => True
  | .next =>
    match s.pc with
    | .got x ch e _ => ∀ st, s.cluster.stateOf w = some st → SafeWith s.cluster w ctx st x e ch
    | _ => True

/-! ## Copies and written values -/

/-- the copies that count: at the sender, the live copy of an entity whose removal is next does not -/
def own (gone : Option EntityName) (st : WorkerState) (y : EntityName) : Option Entity :=
  if gone = some y then st.archived y else st.copyOf y

def view (w : WorkerId) (gone : Option EntityName) (c : Cluster) (v : WorkerId) (y : EntityName) : Option Entity :=
  if v = w then (c.stateOf w).bind fun st => own gone st y else c.copyOf v y

/-- no entity has two copies and each written variable has its last value -/
structure Good (copies : WorkerId → EntityName → Option Entity) (log : List (Address × Var)) : Prop where
  unique : ∀ y v u, (copies v y).isSome = true → (copies u y).isSome = true → v = u
  written : ∀ y idx val, lastWrite log y idx = some val →
    ∃ v e, copies v y = some e ∧ e.storage.map.lookup idx = some val

theorem view_none (w : WorkerId) (c : Cluster) : view w none c = c.copyOf := by
  funext v y
  unfold view
  split_ifs with hv
  · subst hv
    simp only [own, reduceCtorEq, if_false, Cluster.copyOf]
  · rfl

theorem reflected_of_good {s : St} (h : Good s.cluster.copyOf s.log) : Reflected s := by
  intro y idx val hl
  obtain ⟨v, e, he, hval⟩ := h.written y idx val hl
  have hv : s.cluster.Holds v y := Option.isSome_of_eq_some he
  exact ⟨v, e, ⟨hv, fun u hu => h.unique y u v hu hv⟩, he, hval⟩

/-- a conserving change of the cluster keeps the written values -/
theorem Good.conserved {c c' : Cluster} {log : List (Address × Var)} (h : Good c.copyOf log) (hc : Conserved c c') :
    Good c'.copyOf log := by
  refine ⟨fun y v u hv hu => hc.unique y v u hv hu, fun y idx val hl => ?_⟩
  obtain ⟨v, e, he, hval⟩ := h.written y idx val hl
  have hv : c.Holds v y := Option.isSome_of_eq_some he
  obtain ⟨v', e', -, he', hd⟩ := hc.kept y v e ⟨hv, fun u hu => h.unique y u v hu hv⟩ he
  have hs : e'.storage = e.storage := congrArg Prod.fst hd
  exact ⟨v', e', he', by rw [hs, hval]⟩

theorem lastWrite_snoc (log : List (Address × Var)) (a : Address) (val : Var) (y : EntityName) (idx : StorageIndex) :
    lastWrite (log ++ [(a, val)]) y idx =
      if a.entity = y ∧ a.toLocal.asStorageIndex = idx then some val else lastWrite log y idx := by
  simp only [lastWrite, List.reverse_append, List.reverse_singleton, List.singleton_append, List.find?_cons]
  split_ifs with h
  · simp [h]
  · simp [h]

/-- writing a variable of a copy that counts, and logging the write -/
theorem Good.write {copies copies' : WorkerId → EntityName → Option Entity} {log : List (Address × Var)}
    {w : WorkerId} {a : Address} {val : Var} {e : Entity} (h : Good copies log) (he : copies w a.entity = some e)
    (he' : copies' w a.entity = some { e with storage := e.storage.insert a.toLocal.asStorageIndex val })
    (ho : ∀ v y, (v, y) ≠ (w, a.entity) → copies' v y = copies v y) : Good copies' (log ++ [(a, val)]) := by
  have hsome : ∀ v y, (copies' v y).isSome = true → (copies v y).isSome = true := by
    intro v y hv
    by_cases hvy : (v, y) = (w, a.entity)
    · obtain ⟨rfl, rfl⟩ := Prod.mk.inj hvy
      rw [he]
      rfl
    · rwa [ho v y hvy] at hv
  refine ⟨fun y v u hv hu => h.unique y v u (hsome v y hv) (hsome u y hu), fun y idx val' hl => ?_⟩
  rw [lastWrite_snoc] at hl
  split_ifs at hl with ha
  · obtain ⟨rfl, rfl⟩ := ha
    exact ⟨w, _, he', by rw [Storage.lookup_insert_self, hl]⟩
  · obtain ⟨v, e₁, he₁, hval⟩ := h.written y idx val' hl
    by_cases hvy : (v, y) = (w, a.entity)
    · obtain ⟨rfl, rfl⟩ := Prod.mk.inj hvy
      have hidx : idx ≠ a.toLocal.asStorageIndex := fun hi => ha ⟨rfl, hi.symm⟩
      rw [Option.some.inj (he₁.symm.trans he)] at hval
      exact ⟨v, _, he', by rw [Storage.lookup_insert_ne _ _ hidx, hval]⟩
    · exact ⟨v, e₁, (ho v y hvy).trans he₁, hval⟩

/-! ## `SetVars` -/

/-- the copies that count when the sender is in state `st` -/
def viewAt (base : WorkerId → EntityName → Option Entity) (w : WorkerId) (gone : Option EntityName) (st : WorkerState)
    (v : WorkerId) (y : EntityName) : Option Entity :=
  if v = w then own gone st y else base v y

theorem own_touches {gone : Option EntityName} {x y : EntityName} {st st' : WorkerState}
    (h : WorkerState.Touches x st st') (hy : y ≠ x) : own gone st' y = own gone st y := by
  simp only [own, WorkerState.copyOf, h.inMemory y hy, h.archived y hy]

theorem inMemory_isSome_setVar (a : Address) (val : Var) (st : WorkerState) (y : EntityName) :
    ((WorkerState.setVar a val st).1.inMemory y).isSome = (st.inMemory y).isSome ∧
      (WorkerState.setVar a val st).1.archived y = st.archived y := by
  rcases WorkerState.setVar_spec a val st with ⟨-, h⟩ | ⟨e, err, -, h⟩ | ⟨e, he, -, ht, hm, har⟩
  · rw [h]
    exact ⟨rfl, rfl⟩
  · rw [h]
    exact ⟨rfl, rfl⟩
  · by_cases hy : y = a.entity
    · subst hy
      exact ⟨by rw [hm, he]; rfl, har⟩
    · exact ⟨by rw [ht.inMemory y hy], ht.archived y hy⟩

/-- each pair is about an entity in memory, or about one the worker does not hold at all -/
def Writable (st : WorkerState) (pairs : List (Address × Var)) : Prop :=
  ∀ p ∈ pairs, (st.inMemory p.1.entity).isSome = true ∨ st.copyOf p.1.entity = none

theorem Writable.setVar {st : WorkerState} {p : Address × Var} {pairs : List (Address × Var)}
    (h : Writable st (p :: pairs)) (a : Address) (val : Var) : Writable (WorkerState.setVar a val st).1 pairs := by
  intro q hq
  obtain ⟨hm, har⟩ := inMemory_isSome_setVar a val st q.1.entity
  rcases h q (List.mem_cons_of_mem _ hq) with h1 | h1
  · exact .inl (hm.trans h1)
  · refine .inr ?_
    unfold WorkerState.copyOf at h1 ⊢
    rw [har]
    cases hx : st.inMemory q.1.entity with
    | some e =>
      rw [hx] at h1
      cases h1
    | none =>
      rw [hx] at h1 hm
      rw [Option.isSome_eq_false_iff.mp hm |> Option.isNone_iff_eq_none.mp]
      exact h1

/-- the pairs that count are the pairs applied -/
theorem writes_eq_applied {pairs : List (Address × Var)} {st : WorkerState} (h : Writable st pairs) :
    writes pairs st = applied pairs st := by
  unfold writes
  cases hans : (WorkerState.setVars pairs st).2 with
  | error err => rfl
  | ok u =>
    simp only
    induction pairs generalizing st with
    | nil => rfl
    | cons p pairs ih =>
      obtain ⟨a, val⟩ := p
      have hw := h.setVar a val
      have hfilter : pairs.filter (fun q => (st.copyOf q.1.entity).isSome) =
          pairs.filter fun q => ((WorkerState.setVar a val st).1.copyOf q.1.entity).isSome := by
        refine List.filter_congr fun q _ => ?_
        obtain ⟨hm, har⟩ := inMemory_isSome_setVar a val st q.1.entity
        unfold WorkerState.copyOf
        rw [har]
        cases h1 : st.inMemory q.1.entity <;> cases h2 : (WorkerState.setVar a val st).1.inMemory q.1.entity <;>
          rw [h1, h2] at hm <;> first | rfl | cases hm
      have hhead : (st.copyOf a.entity).isSome = (st.inMemory a.entity).isSome := by
        rcases h (a, val) List.mem_cons_self with h1 | h1
        · obtain ⟨e, he⟩ := Option.isSome_iff_exists.mp h1
          simp only [WorkerState.copyOf, he]
          rfl
        · simp only at h1
          rw [h1]
          unfold WorkerState.copyOf at h1
          cases hx : st.inMemory a.entity with
          | none => rfl
          | some e =>
            rw [hx] at h1
            cases h1
      rw [List.filter_cons, hfilter]
      unfold applied
      unfold WorkerState.setVars at hans
      generalize WorkerState.setVar a val st = r at hans hw
      obtain ⟨st', ans⟩ := r
      cases ans with
      | error err => cases hans
      | ok u =>
        simp only at hans ⊢
        rw [ih hw hans, hhead]
        split_ifs <;> rfl


theorem setVars_spec {y : EntityName} {pairs : List (Address × Var)} (h : ∀ p ∈ pairs, p.1.entity ≠ y)
    (st : WorkerState) : (WorkerState.setVars pairs st).1.inMemory y = st.inMemory y := by
  induction pairs generalizing st with
  | nil => rfl
  | cons p pairs ih =>
    obtain ⟨a, val⟩ := p
    have ha : y ≠ a.entity := (h (a, val) List.mem_cons_self).symm
    have hrest : ∀ q ∈ pairs, q.1.entity ≠ y := fun q hq => h q (List.mem_cons_of_mem _ hq)
    unfold WorkerState.setVars
    rcases WorkerState.setVar_spec a val st with ⟨-, hs⟩ | ⟨e, err, -, hs⟩ | ⟨e, -, hok, ht, -⟩
    · rw [hs]
      exact ih hrest st
    · rw [hs]
    · have hy := ht.inMemory y ha
      generalize WorkerState.setVar a val st = r at hok hy
      obtain ⟨st', ans⟩ := r
      simp only at hok
      subst hok
      exact (ih hrest st').trans hy

/-- the writes of one request, none of them to the entity whose removal is next -/
theorem Good.setVars {base : WorkerId → EntityName → Option Entity} {w : WorkerId} {gone : Option EntityName}
    {pairs : List (Address × Var)} {st : WorkerState} {log : List (Address × Var)}
    (h : Good (viewAt base w gone st) log) (hgone : ∀ p ∈ pairs, gone ≠ some p.1.entity) :
    Good (viewAt base w gone (WorkerState.setVars pairs st).1) (log ++ applied pairs st) := by
  induction pairs generalizing st log with
  | nil => simpa only [WorkerState.setVars, applied, List.append_nil] using h
  | cons p pairs ih =>
    obtain ⟨a, val⟩ := p
    have ha : gone ≠ some a.entity := hgone (a, val) List.mem_cons_self
    have hrest : ∀ q ∈ pairs, gone ≠ some q.1.entity := fun q hq => hgone q (List.mem_cons_of_mem _ hq)
    unfold WorkerState.setVars applied
    rcases WorkerState.setVar_spec a val st with ⟨hn, hs⟩ | ⟨e, err, -, hs⟩ | ⟨e, he, hok, ht, hm, har⟩
    · -- not in memory: passed over
      simp only [hs, hn, Option.isSome_none, Bool.false_eq_true, if_false, List.nil_append]
      exact ih h hrest
    · -- refused: the pairs after it are not handled
      simpa only [hs, List.append_nil] using h
    · have hnew : Good (viewAt base w gone (WorkerState.setVar a val st).1) (log ++ [(a, val)]) := by
        refine h.write (w := w) (e := e) ?_ ?_ fun v y hvy => ?_
        · simp only [viewAt, if_true, own, if_neg ha, WorkerState.copyOf, he]
          rfl
        · simp only [viewAt, if_true, own, if_neg ha, WorkerState.copyOf, hm]
          rfl
        · unfold viewAt
          split_ifs with hv
          · exact own_touches ht fun hy => hvy (by rw [hv, hy])
          · rfl
      generalize WorkerState.setVar a val st = r at hok hnew
      obtain ⟨st', ans⟩ := r
      simp only at hok
      subst hok
      simp only [he, Option.isSome_some, if_true]
      rw [← List.append_assoc]
      exact ih hnew hrest

/-! ## The invariant -/

/-- the entity whose removal is next -/
def Pc.gone : Pc → Option EntityName
  | .sent x _ => some x
  | _ => none

/-- the entity under way is in memory, as it was read until it is sent -/
def Pc.Held (w : WorkerId) (c : Cluster) : Pc → Prop
  | .got x _ e _ => c.inMemory w x = some e
  | .sent x _ => (c.inMemory w x).isSome = true
  | _ => True

/-- **The invariant.** -/
structure Inv (w : WorkerId) (s : St) : Prop where
  good : Good (view w s.pc.gone s.cluster) s.log
  held : s.pc.Held w s.cluster

theorem view_of_stateOf {w : WorkerId} {gone : Option EntityName} {c c' : Cluster} {st : WorkerState}
    (hst : c'.stateOf w = some st) (helse : ∀ v, v ≠ w → c'.stateOf v = c.stateOf v) :
    view w gone c' = viewAt c.copyOf w gone st := by
  funext v y
  unfold view viewAt
  split_ifs with hv
  · rw [hst, Option.bind_some]
  · simp only [Cluster.copyOf, helse v hv]

/-- removing the entity leaves the copies that counted before -/
theorem view_removed {w : WorkerId} {c : Cluster} {x : EntityName} {e : Entity} (h : c.inMemory w x = some e) :
    (onManager w (WorkerState.removeEntity x) c).1.copyOf = view w (some x) c := by
  obtain ⟨ht, -, hn, ha, helse⟩ := onManager_remove h
  funext v y
  unfold view
  by_cases hv : v = w
  · subst hv
    by_cases hy : y = x
    · subst hy
      rw [if_pos rfl, copyOf_archived hn, ha, Cluster.archived]
      simp only [own, if_true]
    · rw [if_pos rfl, ht.copyOf hy v, Cluster.copyOf]
      have hne : ¬ some x = some y := fun h => hy (Option.some.inj h).symm
      simp only [own, if_neg hne]
  · rw [if_neg hv]
    by_cases hy : y = x
    · rw [hy, copyOf_congr (helse v hv).1 (helse v hv).2]
    · rw [ht.copyOf hy v]

/-- sending leaves a live copy at the sender -/
theorem send_inMemory {w : WorkerId} {st : WorkerState} (ctx : Context) (ch : Choice) {x : EntityName} {e : Entity}
    {c : Cluster} (hst : c.stateOf w = some st) (he : c.inMemory w x = some e) :
    ((send w ctx ch x e c).1.inMemory w x).isSome = true := by
  have hsome : (c.inMemory w x).isSome = true := Option.isSome_of_eq_some he
  obtain ⟨-, ⟨hsame, -⟩ | ⟨p, exec, direct, -, -, -, hran, sp, hsp, -⟩⟩ := send_spec ctx ch x e hst
  · rwa [(sameAt_of_stateOf hsame w).1]
  · rcases ranAt_take hran hsp with ⟨hsa, -⟩ | ⟨-, -, helse, e', -, hstored⟩
    · rwa [(hsa w).1]
    · by_cases hw : w = p
      · subst hw
        split_ifs at hstored
        · rwa [hstored.2]
        · exact Option.isSome_of_eq_some hstored.1
      · rwa [(helse w hw).1]

theorem Inv.setVars {w : WorkerId} {ctx : Context} {s : St} {pairs : List (Address × Var)} (h : Inv w s)
    (hok : Spared w ctx s (.setVars pairs)) : Inv w (step w ctx s (.setVars pairs)) := by
  unfold step
  cases hst : s.cluster.stateOf w with
  | none => exact h
  | some st =>
    obtain ⟨-, -, hr, -⟩ := onManager_spec (WorkerState.setVars pairs) hst
    obtain ⟨st₀, hst₀, hst'⟩ := hr.here
    obtain rfl : st₀ = st := Option.some.inj (hst₀.symm.trans hst)
    have hwritable : Writable st₀ pairs := by
      intro p hp
      have hp' := (hok p hp).2
      rw [inMemory_of_stateOf hst] at hp'
      simpa only [Cluster.copyOf, hst, Option.bind_some] using hp'
    refine ⟨?_, ?_⟩
    · have hg := h.good
      rw [view_of_stateOf hst fun _ _ => rfl] at hg
      simp only
      rw [view_of_stateOf hst' hr.elsewhere, writes_eq_applied hwritable]
      refine hg.setVars fun p hp hgone => (hok p hp).1 ?_
      cases hpc : s.pc with
      | sent x rest => rwa [hpc] at hgone
      | _ => rw [hpc] at hgone; cases hgone
    · have hx : ∀ x, s.pc.underWay = some x →
          (onManager w (WorkerState.setVars pairs) s.cluster).1.inMemory w x = s.cluster.inMemory w x := by
        intro x hpc
        rw [inMemory_of_stateOf hst, inMemory_of_stateOf hst']
        exact setVars_spec (fun p hp hpx => (hok p hp).1 (hpx ▸ hpc)) st₀
      have hheld := h.held
      simp only
      cases hpc : s.pc with
      | got x ch e rest =>
        rw [hpc] at hheld hx
        exact (hx x rfl).trans hheld
      | sent x rest =>
        rw [hpc] at hheld hx
        exact (congrArg Option.isSome (hx x rfl)).trans hheld
      | _ => trivial

/-- reading an entity conserves the copies, and what was read is in memory -/
theorem onManager_get_conserves {w : WorkerId} {c : Cluster} {st : WorkerState} (now : UInt32) (x : EntityName)
    (hu : c.Unique) (hst : c.stateOf w = some st) :
    let r := onManager w (WorkerState.getEntity now x) c
    Conserved c r.1 ∧ ∀ e, r.2 = .ok e → r.1.inMemory w x = some e := by
  have ht := onManager_touches hst (WorkerState.getEntity_touches now x)
  rcases onManager_get now x hst with ⟨-, hsa, err, herr⟩ | ⟨e, e', he, hok, hd, -, he', -, helse⟩
  · refine ⟨conserved_of_same hu fun y v => ?_, fun e he => ?_⟩
    · by_cases hy : y = x
      · rw [hy, copyOf_congr (hsa v).1 (hsa v).2]
      · rw [ht.copyOf hy v]
    · rw [herr] at he
      cases he
  · refine ⟨conserved_of_own hu ht (copyOf_inMemory he) (copyOf_inMemory he') hd helse, fun e₁ he₁ => ?_⟩
    rw [he', ← Except.ok.inj (hok.symm.trans he₁)]

theorem Inv.next {w : WorkerId} {ctx : Context} {s : St} (h : Inv w s) (hok : Spared w ctx s .next) :
    Inv w (next w ctx s) := by
  obtain ⟨c, cooldown, pc, log⟩ := s
  obtain ⟨hgood, hheld⟩ := h
  unfold MigrationRace.next
  cases pc with
  | idle => exact ⟨hgood, hheld⟩
  | finished r => exact ⟨hgood, hheld⟩
  | loop rest =>
    cases rest with
    | nil => exact ⟨hgood, trivial⟩
    | cons p rest =>
      obtain ⟨x, ch⟩ := p
      simp only [Pc.gone, view_none] at hgood
      cases hst : c.stateOf w with
      | none =>
        have hn : c.workers.lookup w = none := Option.map_eq_none_iff.mp hst
        simp only [onManager, hn]
        exact ⟨by simpa only [Pc.gone, view_none] using hgood, trivial⟩
      | some st =>
        obtain ⟨hcons, hmem⟩ := onManager_get_conserves ch.now x (fun y v u => hgood.unique y v u) hst
        have hgood' := hgood.conserved hcons
        simp only
        generalize onManager w (WorkerState.getEntity ch.now x) c = r at hmem hgood'
        obtain ⟨c₁, ans⟩ := r
        cases ans with
        | error err => exact ⟨by simpa only [Pc.gone, view_none] using hgood', trivial⟩
        | ok e =>
          simp only
          split_ifs
          · exact ⟨by simpa only [Pc.gone, view_none] using hgood', trivial⟩
          · exact ⟨by simpa only [Pc.gone, view_none] using hgood', hmem e rfl⟩
  | got x ch e rest =>
    simp only [Pc.gone, view_none] at hgood
    obtain ⟨st, hst, -⟩ := Option.bind_eq_some_iff.mp hheld
    have hsafe : SafeWith c w ctx st x e ch := hok st hst
    obtain ⟨-, hcons, -⟩ := handOver_safe ch (fun y v u => hgood.unique y v u) hst hheld hsafe
    have hgood' := hgood.conserved hcons
    have hmem := send_inMemory ctx ch hst hheld
    unfold handOver at hgood'
    simp only
    generalize send w ctx ch x e c = r at hmem hgood'
    obtain ⟨c₁, ans⟩ := r
    cases ans with
    | error err => exact ⟨by simpa only [Pc.gone, view_none] using hgood', trivial⟩
    | ok u =>
      obtain ⟨e₁, he₁⟩ := Option.isSome_iff_exists.mp hmem
      simp only at hgood'
      rw [view_removed he₁] at hgood'
      exact ⟨hgood', hmem⟩
  | sent x rest =>
    obtain ⟨e, he⟩ := Option.isSome_iff_exists.mp hheld
    simp only [Pc.gone] at hgood
    rw [← view_removed he] at hgood
    obtain ⟨-, hans, -⟩ := onManager_remove he
    simp only
    generalize onManager w (WorkerState.removeEntity x) c = r at hans hgood
    obtain ⟨c₁, ans⟩ := r
    simp only at hans
    subst hans
    exact ⟨by simpa only [Pc.gone, view_none] using hgood, trivial⟩

theorem Inv.list {w : WorkerId} {ctx : Context} {s : St} (h : Inv w s) (listed : List (EntityName × Choice)) :
    Inv w (step w ctx s (.list listed)) := by
  simp only [MigrationRace.step]
  split
  · rename_i st hpc hst
    have hgood := h.good
    rw [hpc] at hgood
    split_ifs
    · exact ⟨hgood, trivial⟩
    · exact ⟨hgood, trivial⟩
    · exact h
  · exact h

theorem Inv.step {w : WorkerId} {ctx : Context} (s : St) (op : Op) (h : Inv w s) (hok : Spared w ctx s op) :
    Inv w (step w ctx s op) := by
  cases op with
  | setVars pairs => exact h.setVars hok
  | list listed => exact h.list listed
  | next => exact h.next hok

theorem inv_start {w : WorkerId} {c : Cluster} (hu : c.Unique) : Inv w (start c) := by
  refine ⟨⟨?_, ?_⟩, trivial⟩
  · simp only [start, Pc.gone, view_none]
    exact fun y v u => hu y v u
  · intro y idx val hl
    cases hl

/-- **Writes survive a migration.** From a state in which no name is held twice, in every run of `SetVars` requests
and messages of the handler whose steps all meet the condition, once the handler has finished every variable has the
last value that counts in the single copy of its entity. -/
theorem writes_survive (c : Cluster) (w : WorkerId) (ctx : Context) (hu : c.Unique) (ops : List Op)
    (hok : Along (step w ctx) (Spared w ctx) (start c) ops) (r : Except Error Unit)
    (hfin : (run (step w ctx) (start c) ops).pc = .finished r) : Reflected (run (step w ctx) (start c) ops) := by
  have hinv : Inv w (run (step w ctx) (start c) ops) :=
    Core.run_inv (fun s op h ho => h.step s op ho) (inv_start hu) hok
  have hgood := hinv.good
  rw [hfin] at hgood
  simp only [Pc.gone, view_none] at hgood
  exact reflected_of_good hgood

/-! ## Without writes in between -/

/-- **The messages one by one** do what the handler's loop does. -/
theorem run_next_loop (w : WorkerId) (ctx : Context) (cooldown : Option UInt32) (log : List (Address × Var))
    (listed : List (EntityName × Choice)) (c : Cluster) :
    ∃ n, run (step w ctx) ⟨c, cooldown, .loop listed, log⟩ (List.replicate n .next) =
      ⟨(migrateLoop cooldown w ctx listed c).1, cooldown, .finished (migrateLoop cooldown w ctx listed c).2, log⟩ := by
  induction listed generalizing c with
  | nil => exact ⟨1, rfl⟩
  | cons p rest ih =>
    obtain ⟨x, ch⟩ := p
    unfold migrateLoop migrateEntity
    cases hget : onManager w (WorkerState.getEntity ch.now x) c with
    | mk c₁ ans =>
      cases ans with
      | error err => exact ⟨1, by simp [step, next, hget]⟩
      | ok e =>
        simp only
        split_ifs with hcool
        · -- the cooldown holds the entity back
          obtain ⟨n, hn⟩ := ih c₁
          refine ⟨n + 1, ?_⟩
          rw [List.replicate_succ, Core.run_cons, ← hn]
          simp [step, next, hget, hcool]
        · unfold handOver
          cases hsend : send w ctx ch x e c₁ with
          | mk c₂ ans =>
            cases ans with
            | error err => exact ⟨2, by simp [List.replicate, step, next, hget, hcool, hsend]⟩
            | ok u =>
              cases hrem : onManager w (WorkerState.removeEntity x) c₂ with
              | mk c₃ ans =>
                cases ans with
                | error err => exact ⟨3, by simp [List.replicate, step, next, hget, hcool, hsend, hrem]⟩
                | ok u =>
                  obtain ⟨n, hn⟩ := ih c₃
                  refine ⟨n + 3, ?_⟩
                  simp only [List.replicate_succ, Core.run_cons, hrem]
                  rw [← hn]
                  simp [step, next, hget, hcool, hsend, hrem]

/-- the whole handler, from its listing on -/
theorem run_next_migrate {w : WorkerId} {c : Cluster} {st : WorkerState} (ctx : Context)
    (listed : List (EntityName × Choice)) (hst : c.stateOf w = some st) (hlist : Lists c w listed) :
    ∃ n, (run (step w ctx) (start c) (.list listed :: List.replicate n .next)).cluster =
        (migrateEntities w ctx listed c).1 ∧
      (run (step w ctx) (start c) (.list listed :: List.replicate n .next)).pc =
        .finished (migrateEntities w ctx listed c).2 := by
  unfold migrateEntities
  simp only [hst]
  cases hp : st.part with
  | none => exact ⟨0, by simp [step, start, hst, hp]⟩
  | some part =>
    have hl : st.Listing (listed.map Prod.fst) := hlist st hst (by rw [hp]; rfl)
    obtain ⟨n, hn⟩ := run_next_loop w ctx st.config.entityMigrationCooldownSecs [] listed c
    have hstart : step w ctx (start c) (.list listed) =
        ⟨c, st.config.entityMigrationCooldownSecs, .loop listed, []⟩ := by
      simp [step, start, hst, hp, hl]
    exact ⟨n, by rw [Core.run_cons, hstart, hn]; simp, by rw [Core.run_cons, hstart, hn]; simp⟩

/-! ## Two runs -/

/-- at a worker without an archive that has one local peer, every message of the handler meets the condition -/
theorem spared_next_of_peer {w p : WorkerId} {s : St} (ctx : Context) (hne : p ≠ w)
    (h : (s.cluster.stateOf w).map (fun st => (st.otherWorkers, st.part.bind (·.archive))) =
      some (Finmap.singleton p (.connected .local), none)) : Spared w ctx s .next := by
  simp only [Spared]
  split
  · intro st hst
    rw [hst, Option.map_some, Option.some.injEq, Prod.mk.injEq] at h
    refine (safeFor_of_peer ctx _ _ h.1 hne ?_).withChoice _
    obtain ⟨-, h⟩ := h
    unfold WorkerState.archived
    cases hp : st.part with
    | none => rfl
    | some part =>
      rw [hp, Option.bind_some] at h
      simp only [Option.bind_some, Partition.archived, h, Option.bind_none]
  · trivial

def setX : List (Address × Var) := [(⟨"ball", "position", .int, "x"⟩, .int 7)]

/-- the ball's variable is written, then the ball moves to the other worker -/
def writeThenMove : List Op := [.setVars setX, .list [("ball", .sure 1 100)], .next, .next, .next, .next]

/-- the value written before the migration is there after it -/
theorem writeThenMove_reflected : Reflected (run (step 0 viaLeader) (start pair) writeThenMove) := by
  refine writes_survive pair 0 viaLeader pair_unique writeThenMove ⟨?_, trivial, ?_, ?_, ?_, ?_, trivial⟩ (.ok ()) rfl
  · intro p hp
    rw [List.mem_singleton.mp hp]
    exact ⟨by decide, .inl rfl⟩
  all_goals exact spared_next_of_peer (p := 1) viaLeader (by decide) (by decide)

/-- the ball is read, then its variable is written, then the old copy is sent and the new one removed -/
def writeBetween : List Op := [.list [("ball", .sure 1 100)], .next, .setVars setX, .next, .next, .next]

/-- **A write answered `Ok` is lost.** It lands between the reading of the entity and its hand-over. -/
theorem acknowledged_write_lost :
    ¬ ∀ (c : Cluster) (w : WorkerId) (ctx : Context) (ops : List Op) (r : Except Error Unit), c.Unique →
      (run (step w ctx) (start c) ops).pc = .finished r → Reflected (run (step w ctx) (start c) ops) := by
  intro h
  have hr := h pair 0 viaLeader writeBetween (.ok ()) pair_unique rfl
  have hlog : lastWrite (run (step 0 viaLeader) (start pair) writeBetween).log "ball" ("position", "x") =
      some (.int 7) := rfl
  obtain ⟨v, e, -, he, hval⟩ := hr "ball" ("position", "x") (.int 7) hlog
  have hkeys : (run (step 0 viaLeader) (start pair) writeBetween).cluster.workers.keys = {0, 1} := by decide
  have hsource : (run (step 0 viaLeader) (start pair) writeBetween).cluster.copyOf 0 "ball" = none := by decide
  have htarget : ((run (step 0 viaLeader) (start pair) writeBetween).cluster.copyOf 1 "ball").bind
      (·.storage.map.lookup ("position", "x")) = some (.int 3) := rfl
  have hv : v ∈ ({0, 1} : Finset WorkerId) := hkeys ▸ Cluster.mem_keys_of_copyOf he
  simp only [Finset.mem_insert, Finset.mem_singleton] at hv
  rcases hv with rfl | rfl
  · rw [hsource] at he
    cases he
  · rw [he, Option.bind_some, hval] at htarget
    simp at htarget

end BigWorlds.MigrationRace
