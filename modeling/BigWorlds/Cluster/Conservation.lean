/-
Conservation of entities under migration: handling one `MigrateEntities` ends with every entity that had one holder at
one holder, with the same variables and components, and with no entity at two.

Two things lose or double an entity:
- the target is the sender itself. The leader leaves out workers the call went through, but a worker that got
  `MigrateEntities` over the network registered no hop; `add_entity` then overwrites the copy that the next line
  removes. And with neither peers nor a leader connection nothing is sent, and the removal runs all the same;
- the source keeps a copy. An entity that is archived as well stays in the archive when its live copy is removed, and
  a lost answer ends the handler before the removal although the target has the entity.

- `Safe`: a condition on the state before, about the entities in memory that the cooldown lets move, and the workers
  that the call can reach and that would take them;
- `migration_conserves_iff`: from a state in which no name is held twice, every run of the handler conserves the
  entities exactly when the state is `Safe`. The context is any: a `MigrateEntities` sent alone and one sent by the
  leader's `ReorganizeEntities` differ in nothing else;
- `migration_loses_entity`: a single worker connected over the network loses its only entity.
-/
import BigWorlds.Cluster.Migration

namespace BigWorlds.Migration

open BigWorlds.Core (Exec Rng)
open Cluster (Accepts RanAt)

/-! ## What is to hold -/

/-- worker `v` is the only one that holds entity `x` -/
def HeldOnce (c : Cluster) (v : WorkerId) (x : EntityName) : Prop := c.Holds v x ∧ ∀ u, c.Holds u x → u = v

/-- an entity with one holder before has one after, with the same variables and components; none has two -/
structure Conserved (c c' : Cluster) : Prop where
  kept : ∀ x v e, HeldOnce c v x → c.copyOf v x = some e →
    ∃ v' e', HeldOnce c' v' x ∧ c'.copyOf v' x = some e' ∧ e'.data = e.data
  unique : c'.Unique

/-! ## The condition -/

/-- the cooldown does not hold the entity back at every clock reading -/
def Movable (st : WorkerState) (e : Entity) : Prop :=
  ∃ now, coolingDown st.config.entityMigrationCooldownSecs now e = false

/-- the archive of the worker has a copy with the same data -/
def Backed (st : WorkerState) (x : EntityName) (e : Entity) : Prop :=
  ∃ e', st.archived x = some e' ∧ e'.data = e.data

/-- entity `x` may go from `w` to `p`: back to the sender only into or beside the archive, to another worker only over
local executors and without a copy left in the archive -/
def MayGo (w : WorkerId) (st : WorkerState) (x : EntityName) (e : Entity) (p : WorkerId) (direct : Prop) : Prop :=
  if p = w then st.createsToArchive = true ∨ Backed st x e else direct ∧ st.archived x = none

/-- entity `x` may go to each worker that the call can reach and that takes it; with nowhere to send it, the archive
has its data -/
def SafeFor (c : Cluster) (w : WorkerId) (ctx : Context) (st : WorkerState) (x : EntityName) (e : Entity) : Prop :=
  (∀ p exec direct, Target c st ctx p exec direct → Receives c p exec ctx → MayGo w st x e p direct) ∧
    (¬ HasRoute st → Backed st x e)

/-- the same for one choice of the environment: only the target it picks matters, and where it loses no answer a
remote executor is as good as a local one -/
def SafeWith (c : Cluster) (w : WorkerId) (ctx : Context) (st : WorkerState) (x : EntityName) (e : Entity)
    (ch : Choice) : Prop :=
  (∀ p exec direct, Target c st ctx p exec direct → ch.Picks c st ctx p → Receives c p exec ctx →
      MayGo w st x e p (direct ∨ ch.Answered)) ∧
    (¬ HasRoute st → Backed st x e)

/-- **The condition.** Every entity in memory that the cooldown can let move is safe to hand over. -/
def Safe (c : Cluster) (w : WorkerId) (ctx : Context) : Prop :=
  ∀ st x e, c.stateOf w = some st → st.inMemory x = some e → Movable st e → SafeFor c w ctx st x e

/-! ## Copies -/

theorem copyOf_none_of_ne {c : Cluster} (hu : c.Unique) {w v : WorkerId} {x : EntityName} (hw : c.Holds w x)
    (hv : v ≠ w) : c.copyOf v x = none := by
  by_contra hne
  exact hv (hu x v w (Option.isSome_iff_ne_none.mpr hne) hw)

theorem inMemory_none {c : Cluster} {v : WorkerId} {x : EntityName} (h : c.copyOf v x = none) :
    c.inMemory v x = none ∧ c.archived v x = none := by
  rw [Cluster.copyOf_eq] at h
  cases hm : c.inMemory v x with
  | none =>
    rw [hm] at h
    exact ⟨rfl, h⟩
  | some e =>
    rw [hm] at h
    cases h

theorem copyOf_congr {c c' : Cluster} {v : WorkerId} {x : EntityName} (hm : c'.inMemory v x = c.inMemory v x)
    (ha : c'.archived v x = c.archived v x) : c'.copyOf v x = c.copyOf v x := by
  rw [Cluster.copyOf_eq, Cluster.copyOf_eq, hm, ha]

theorem copyOf_inMemory {c : Cluster} {v : WorkerId} {x : EntityName} {e : Entity} (h : c.inMemory v x = some e) :
    c.copyOf v x = some e := by
  rw [Cluster.copyOf_eq, h]
  rfl

theorem copyOf_archived {c : Cluster} {v : WorkerId} {x : EntityName} (h : c.inMemory v x = none) :
    c.copyOf v x = c.archived v x := by
  rw [Cluster.copyOf_eq, h]
  rfl

/-! ## Conserving steps -/

theorem holds_congr {c c' : Cluster} {v : WorkerId} {x : EntityName}
    (h : (c'.copyOf v x).map Entity.data = (c.copyOf v x).map Entity.data) : c'.Holds v x ↔ c.Holds v x := by
  unfold Cluster.Holds
  rw [← Option.isSome_map (f := Entity.data), h, Option.isSome_map]

/-- every worker's copy of every entity has the data it had -/
theorem conserved_of_same {c c' : Cluster} (hu : c.Unique)
    (h : ∀ x v, (c'.copyOf v x).map Entity.data = (c.copyOf v x).map Entity.data) : Conserved c c' := by
  refine ⟨fun x v e hv he => ?_, fun x v u hv hu' => ?_⟩
  · have hm := h x v
    rw [he, Option.map_some] at hm
    obtain ⟨e', he', hd⟩ := Option.map_eq_some_iff.mp hm
    exact ⟨v, e', ⟨(holds_congr (h x v)).mpr hv.1, fun u hu => hv.2 u ((holds_congr (h x u)).mp hu)⟩, he', hd⟩
  · exact hu x v u ((holds_congr (h x v)).mp hv) ((holds_congr (h x u)).mp hu')

/-- entity `x` moved from `w` to `p`, everything else stayed -/
theorem conserved_of_moved {x : EntityName} {w p : WorkerId} {e e' : Entity} {c c' : Cluster} (hu : c.Unique)
    (hw : c.copyOf w x = some e) (hp : c'.copyOf p x = some e') (hd : e'.data = e.data)
    (hn : ∀ v, v ≠ p → c'.copyOf v x = none) (ho : ∀ y, y ≠ x → ∀ v, c'.copyOf v y = c.copyOf v y) :
    Conserved c c' := by
  have hp1 : ∀ u, c'.Holds u x → u = p := by
    intro u hu'
    by_contra hne
    rw [Cluster.Holds, hn u hne] at hu'
    cases hu'
  refine ⟨fun y v d hv he => ?_, fun y v u hv hu' => ?_⟩
  · by_cases hy : y = x
    · subst hy
      have hvw : w = v := hv.2 w (by rw [Cluster.Holds, hw]; rfl)
      have hde : d = e := Option.some.inj (he.symm.trans (hvw ▸ hw))
      exact ⟨p, e', ⟨by rw [Cluster.Holds, hp]; rfl, hp1⟩, hp, hde ▸ hd⟩
    · refine ⟨v, d, ⟨?_, fun u hu => hv.2 u ?_⟩, by rw [ho y hy]; exact he, rfl⟩
      · rw [Cluster.Holds, ho y hy]
        exact hv.1
      · rw [Cluster.Holds, ← ho y hy]
        exact hu
  · by_cases hy : y = x
    · subst hy
      rw [hp1 v hv, hp1 u hu']
    · rw [Cluster.Holds, ho y hy] at hv hu'
      exact hu y v u hv hu'

theorem Conserved.trans {c₁ c₂ c₃ : Cluster} (h₁ : Conserved c₁ c₂) (h₂ : Conserved c₂ c₃) : Conserved c₁ c₃ := by
  refine ⟨fun x v e hv he => ?_, h₂.unique⟩
  obtain ⟨v₂, e₂, hv₂, he₂, hd₂⟩ := h₁.kept x v e hv he
  obtain ⟨v₃, e₃, hv₃, he₃, hd₃⟩ := h₂.kept x v₂ e₂ hv₂ he₂
  exact ⟨v₃, e₃, hv₃, he₃, hd₃.trans hd₂⟩

/-! ## The condition is enough -/

/-- a step that at most stamps the live copy of `x`, or takes it away, leaves the state safe -/
theorem Safe.touches {w : WorkerId} {ctx : Context} {x : EntityName} {c c' : Cluster} (h : Safe c w ctx)
    (ht : Touches x c c')
    (hx : ∀ e', c'.inMemory w x = some e' → ∃ e, c.inMemory w x = some e ∧ e'.data = e.data ∧
      e'.meta_.lastMoved = e.meta_.lastMoved ∧ c'.archived w x = c.archived w x) : Safe c' w ctx := by
  intro st' y e' hst' he' hmov
  obtain ⟨st, hst, hts⟩ := ht.stateBack hst'
  -- the copy of `y` before the step: the same up to the access time
  obtain ⟨e, he, hd, hlm, ha⟩ : ∃ e, st.inMemory y = some e ∧ e'.data = e.data ∧
      e'.meta_.lastMoved = e.meta_.lastMoved ∧ st'.archived y = st.archived y := by
    by_cases hy : y = x
    · subst hy
      obtain ⟨e, he, hd, hlm, ha⟩ := hx e' (by rw [inMemory_of_stateOf hst', he'])
      rw [inMemory_of_stateOf hst] at he
      rw [archived_of_stateOf hst', archived_of_stateOf hst] at ha
      exact ⟨e, he, hd, hlm, ha⟩
    · exact ⟨e', by rw [← hts.inMemory y hy, he'], rfl, rfl, hts.archived y hy⟩
  have hmov' : Movable st e := by
    obtain ⟨now, hnow⟩ := hmov
    refine ⟨now, ?_⟩
    unfold coolingDown at hnow ⊢
    rwa [← hlm, ← hts.config]
  obtain ⟨hgo, hback⟩ := h st y e hst he hmov'
  have hbacked : Backed st y e → Backed st' y e' := by
    rintro ⟨b, hb, hbd⟩
    exact ⟨b, ha ▸ hb, hbd.trans hd.symm⟩
  refine ⟨fun p exec direct htg hrec => ?_, fun hr => ?_⟩
  · have hmay := hgo p exec direct ((target_congr ht.leader hts).mp htg) (ht.receives hrec)
    unfold MayGo at hmay ⊢
    split_ifs at hmay ⊢ with hp
    · exact hmay.imp (fun hc => hts.creates ▸ hc) hbacked
    · exact ⟨hmay.1, ha ▸ hmay.2⟩
  · refine hbacked (hback fun hr' => hr ?_)
    exact hr'.imp (fun hn => hts.otherWorkers ▸ hn) (fun hn => hts.leader ▸ hn)

/-- the worker's own copy keeps its data and no other worker's copy changes -/
theorem conserved_of_own {c c' : Cluster} {w : WorkerId} {x : EntityName} {e e' : Entity} (hu : c.Unique)
    (ht : Touches x c c') (he : c.copyOf w x = some e) (he' : c'.copyOf w x = some e') (hd : e'.data = e.data)
    (helse : SameElsewhere w x c c') : Conserved c c' := by
  refine conserved_of_same hu fun y v => ?_
  by_cases hy : y = x
  · subst hy
    by_cases hv : v = w
    · rw [hv, he, he', Option.map_some, Option.map_some, hd]
    · rw [copyOf_congr (helse v hv).1 (helse v hv).2]
  · rw [ht.copyOf hy v]

/-- the hand-over succeeded and the live copy is removed: what counts is where the entity is now -/
theorem removed_conserves {w : WorkerId} {x : EntityName} {e e₁ : Entity} {c c₁ : Cluster} (hu : c.Unique)
    (ht : Touches x c c₁) (he : c.inMemory w x = some e) (he₁ : c₁.inMemory w x = some e₁)
    (h : (SameElsewhere w x c c₁ ∧ ∃ b, c₁.archived w x = some b ∧ b.data = e.data) ∨
      (c₁.archived w x = none ∧ ∃ p, p ≠ w ∧ (∃ e', c₁.copyOf p x = some e' ∧ e'.data = e.data) ∧
        ∀ v, v ≠ w → v ≠ p → c₁.copyOf v x = none)) :
    Touches x c (onManager w (WorkerState.removeEntity x) c₁).1 ∧
      Conserved c (onManager w (WorkerState.removeEntity x) c₁).1 ∧
      (onManager w (WorkerState.removeEntity x) c₁).1.inMemory w x = none := by
  obtain ⟨ht₂, -, hn, ha, helse⟩ := onManager_remove he₁
  refine ⟨ht.trans ht₂, ?_, hn⟩
  rcases h with ⟨helse₁, b, hb, hd⟩ | ⟨ha₁, p, hpw, ⟨e', hp, hd⟩, hno⟩
  · refine conserved_of_own hu (ht.trans ht₂) (copyOf_inMemory he) ((copyOf_archived hn).trans (ha.trans hb)) hd ?_
    intro v hv
    exact ⟨(helse v hv).1.trans (helse₁ v hv).1, (helse v hv).2.trans (helse₁ v hv).2⟩
  · refine conserved_of_moved (p := p) hu (copyOf_inMemory he) ?_ hd ?_ fun _ hy => (ht.trans ht₂).copyOf hy
    · rw [copyOf_congr (helse p hpw).1 (helse p hpw).2, hp]
    · intro v hv
      by_cases hvw : v = w
      · rw [hvw, copyOf_archived hn, ha, ha₁]
      · rw [copyOf_congr (helse v hvw).1 (helse v hvw).2, hno v hvw hv]

theorem SafeFor.withChoice {c : Cluster} {w : WorkerId} {ctx : Context} {st : WorkerState} {x : EntityName} {e : Entity}
    (h : SafeFor c w ctx st x e) (ch : Choice) : SafeWith c w ctx st x e ch := by
  refine ⟨fun p exec direct htg _ hrec => ?_, h.2⟩
  have hmay := h.1 p exec direct htg hrec
  unfold MayGo at hmay ⊢
  split_ifs at hmay ⊢
  · exact hmay
  · exact ⟨.inl hmay.1, hmay.2⟩

/-- **Handing over an entity that is safe to hand over** conserves the entities, and on success its live copy is gone. -/
theorem handOver_safe {w : WorkerId} {ctx : Context} (ch : Choice) {x : EntityName} {e : Entity} {c : Cluster}
    {st : WorkerState} (hu : c.Unique) (hst : c.stateOf w = some st) (he : c.inMemory w x = some e)
    (hsafe : SafeWith c w ctx st x e ch) :
    Touches x c (handOver w ctx ch x e c).1 ∧ Conserved c (handOver w ctx ch x e c).1 ∧
      ((handOver w ctx ch x e c).2 = .ok () → (handOver w ctx ch x e c).1.inMemory w x = none) := by
  have hcopy : c.copyOf w x = some e := copyOf_inMemory he
  have hholds : c.Holds w x := Option.isSome_of_eq_some hcopy
  obtain ⟨hgo, hback⟩ := hsafe
  obtain ⟨ht, hs⟩ := send_spec ctx ch x e hst
  unfold handOver
  generalize send w ctx ch x e c = r at ht hs
  obtain ⟨c₁, ans⟩ := r
  rcases hs with ⟨hsame, ⟨err, herr⟩ | ⟨hok, hroute⟩⟩ | ⟨p, exec, direct, htg, hpick, hacc, hran, sp, hsp, hans⟩
  · -- nothing was sent and the handler stops
    simp only at herr
    subst herr
    have hcons : Conserved c c₁ := conserved_of_same hu fun y v => by simp only [Cluster.copyOf, hsame v]
    exact ⟨ht, hcons, fun h => by cases h⟩
  · -- nowhere to send it: the archive has the data
    simp only at hok hsame
    subst hok
    obtain ⟨b, hb, hd⟩ := hback hroute
    have hsa := sameAt_of_stateOf (x := x) hsame
    obtain ⟨ht₂, hcons, hn⟩ := removed_conserves hu ht he ((hsa w).1.trans he)
      (.inl ⟨fun v _ => hsa v, b, by rw [(hsa w).2, archived_of_stateOf hst, hb], hd⟩)
    exact ⟨ht₂, hcons, fun _ => hn⟩
  · simp only at hans hran
    rcases ranAt_take hran hsp with ⟨hsa, err', herr'⟩ | ⟨hok', htakes, helse, e', hd, hstored⟩
    · -- the target refused it
      obtain ⟨err, rfl⟩ : ∃ err, ans = .error err := by
        rcases hans with ⟨-, hok⟩ | ⟨err, herr, -⟩
        · rw [herr'] at hok
          cases hok
        · exact ⟨err, herr⟩
      refine ⟨ht, conserved_of_own hu ht hcopy (copyOf_inMemory ((hsa w).1.trans he)) rfl fun v _ => hsa v, ?_⟩
      exact fun h => by cases h
    · have hmay := hgo p exec direct htg hpick ⟨hacc, sp, hsp, htakes⟩
      unfold MayGo at hmay
      split_ifs at hmay with hpw
      · -- the target is the sender: the archive ends up with the data
        subst hpw
        have hsps : sp = st := Option.some.inj (hsp.symm.trans hst)
        subst hsps
        obtain ⟨e₁, he₁, hd₁, b, hb, hdb⟩ : ∃ e₁, c₁.inMemory p x = some e₁ ∧ e₁.data = e.data ∧
            ∃ b, c₁.archived p x = some b ∧ b.data = e.data := by
          split_ifs at hstored with hc
          · exact ⟨e, hstored.2.trans he, rfl, e', hstored.1, hd⟩
          · obtain ⟨b, hb, hdb⟩ := hmay.resolve_left hc
            exact ⟨e', hstored.1, hd, b, by rw [hstored.2, archived_of_stateOf hst, hb], hdb⟩
        cases ans with
        | error err =>
          refine ⟨ht, conserved_of_own hu ht hcopy (copyOf_inMemory he₁) hd₁ helse, fun h => by cases h⟩
        | ok u =>
          obtain ⟨ht₂, hcons, hn⟩ := removed_conserves hu ht he he₁ (.inl ⟨helse, b, hb, hdb⟩)
          exact ⟨ht₂, hcons, fun _ => hn⟩
      · -- another worker took it and the answer came back
        obtain ⟨hdirect, harch⟩ := hmay
        have hans' : ans = .ok () := by
          rcases hans with ⟨hok, -⟩ | ⟨err, -, ⟨err', herr'⟩ | hnd⟩
          · exact hok
          · rw [hok'] at herr'
            cases herr'
          · exact absurd hdirect hnd
        subst hans'
        obtain ⟨hpm, hpa⟩ := inMemory_none (copyOf_none_of_ne hu hholds hpw)
        have hp : c₁.copyOf p x = some e' := by
          rw [Cluster.copyOf_eq]
          split_ifs at hstored with hc
          · rw [hstored.1, hstored.2, hpm]
            rfl
          · rw [hstored.1]
            rfl
        have hw := helse w (Ne.symm hpw)
        obtain ⟨ht₂, hcons, hn⟩ := removed_conserves hu ht he (hw.1.trans he) (.inr
          ⟨by rw [hw.2, archived_of_stateOf hst, harch], p, hpw, ⟨e', hp, hd⟩, fun v hvw hvp => by
            rw [copyOf_congr (helse v hvp).1 (helse v hvp).2, copyOf_none_of_ne hu hholds hvw]⟩)
        exact ⟨ht₂, hcons, fun _ => hn⟩

/-- one round on a safe state: the entities are conserved, and after a success the state is safe again -/
theorem migrateEntity_safe {w : WorkerId} {ctx : Context} (x : EntityName) (ch : Choice) {c : Cluster}
    {st : WorkerState} (hu : c.Unique) (hsafe : Safe c w ctx) (hst : c.stateOf w = some st) :
    let r := migrateEntity st.config.entityMigrationCooldownSecs w ctx x ch c
    Touches x c r.1 ∧ Conserved c r.1 ∧ (r.2 = .ok () → Safe r.1 w ctx) := by
  have ht := onManager_touches hst (WorkerState.getEntity_touches ch.now x)
  have hget := onManager_get ch.now x hst
  unfold migrateEntity
  generalize onManager w (WorkerState.getEntity ch.now x) c = r at ht hget
  obtain ⟨c₁, ans⟩ := r
  rcases hget with ⟨-, hsa, err, herr⟩ | ⟨e, e', he, hok, hd, hlm, he', ha, helse⟩
  · simp only at herr hsa
    subst herr
    refine ⟨ht, conserved_of_same hu fun y v => ?_, fun h => by cases h⟩
    by_cases hy : y = x
    · rw [hy, copyOf_congr (hsa v).1 (hsa v).2]
    · rw [ht.copyOf hy v]
  · simp only at hok he' ha helse
    subst hok
    obtain ⟨st₁, hst₁, hts⟩ := ht.state hst
    have hcons : Conserved c c₁ := conserved_of_own hu ht (copyOf_inMemory he) (copyOf_inMemory he') hd helse
    have hsafe₁ : Safe c₁ w ctx := by
      refine hsafe.touches ht fun e₁ he₁ => ⟨e, he, ?_⟩
      rw [Option.some.inj (he₁.symm.trans he')]
      exact ⟨hd, hlm, ha⟩
    simp only
    split_ifs with hcool
    · exact ⟨ht, hcons, fun _ => hsafe₁⟩
    · have hmov : Movable st₁ e' := ⟨ch.now, by rw [hts.config]; simpa using hcool⟩
      have hmem : st₁.inMemory x = some e' := (inMemory_of_stateOf hst₁ x).symm.trans he'
      obtain ⟨ht₂, hcons₂, hgone⟩ := handOver_safe ch hcons.unique hst₁ he' ((hsafe₁ st₁ x e' hst₁ hmem hmov).withChoice ch)
      refine ⟨ht.trans ht₂, hcons.trans hcons₂, fun h => hsafe₁.touches ht₂ fun e₂ he₂ => ?_⟩
      rw [hgone h] at he₂
      cases he₂

theorem migrateLoop_safe {w : WorkerId} {ctx : Context} (listed : List (EntityName × Choice)) {c : Cluster}
    {st : WorkerState} (hu : c.Unique) (hsafe : Safe c w ctx) (hst : c.stateOf w = some st) :
    Conserved c (migrateLoop st.config.entityMigrationCooldownSecs w ctx listed c).1 := by
  induction listed generalizing c st with
  | nil => exact conserved_of_same hu fun _ _ => rfl
  | cons p rest ih =>
    obtain ⟨x, ch⟩ := p
    obtain ⟨ht, hcons, hsafe₁⟩ := migrateEntity_safe x ch hu hsafe hst
    unfold migrateLoop
    generalize migrateEntity st.config.entityMigrationCooldownSecs w ctx x ch c = r at ht hcons hsafe₁
    obtain ⟨c₁, ans⟩ := r
    cases ans with
    | error err => exact hcons
    | ok u =>
      obtain ⟨st₁, hst₁, hts⟩ := ht.state hst
      rw [← hts.config]
      exact hcons.trans (ih hcons.unique (hsafe₁ rfl) hst₁)

/-! ## The condition is needed -/

/-- an entity whose live copy is gone is not moved again: later rounds leave all its copies alone -/
theorem migrateLoop_gone {w : WorkerId} {ctx : Context} (cooldown : Option UInt32)
    (listed : List (EntityName × Choice)) {c : Cluster} {st : WorkerState} {x : EntityName}
    (hst : c.stateOf w = some st) (hx : c.inMemory w x = none) (v : WorkerId) :
    (migrateLoop cooldown w ctx listed c).1.copyOf v x = c.copyOf v x := by
  induction listed generalizing c st with
  | nil => rfl
  | cons p rest ih =>
    obtain ⟨y, ch⟩ := p
    have ht := migrateEntity_touches cooldown ctx y ch hst
    obtain ⟨st₁, hst₁, -⟩ := ht.state hst
    unfold migrateLoop
    by_cases hy : x = y
    · -- reading it again fails, which ends the handler
      subst hy
      rcases onManager_get ch.now x hst with ⟨-, hsa, err, herr⟩ | ⟨e, -, he, -⟩
      · have hstop : migrateEntity cooldown w ctx x ch c =
            ((onManager w (WorkerState.getEntity ch.now x) c).1, .error err) := by
          unfold migrateEntity
          generalize onManager w (WorkerState.getEntity ch.now x) c = r at herr
          obtain ⟨c₁, ans⟩ := r
          simp only at herr
          rw [herr]
        rw [hstop]
        exact copyOf_congr (hsa v).1 (hsa v).2
      · rw [hx] at he
        cases he
    · have hsame := ht.copyOf hy v
      have hgone := (ht.inMemory hy hst).trans hx
      generalize migrateEntity cooldown w ctx y ch c = r at hsame hgone hst₁
      obtain ⟨c₁, ans⟩ := r
      cases ans with
      | error err => exact hsame
      | ok u => exact (ih hst₁ hgone).trans hsame

/-- nothing goes wrong: the choice falls on `p` where it can, libraries load and no message is lost -/
def Choice.sure (p : WorkerId) (now : UInt32) : Choice := ⟨.prefer p, fun _ => .ok (), now, now, 0, .delivered, .delivered⟩

/-- an entity can reach every target that receives it, and the sender is told so -/
theorem send_reaches {w p : WorkerId} {ctx : Context} {c : Cluster} {st : WorkerState} {exec : Exec} {direct : Prop}
    (x : EntityName) (e : Entity) (now : UInt32) (hst : c.stateOf w = some st) (htg : Target c st ctx p exec direct)
    (hrec : Receives c p exec ctx) :
    RanAt p (takeEntity (.sure p now) x e) c (send w ctx (.sure p now) x e c).1 ∧
      (send w ctx (.sure p now) x e c).2 = .ok () := by
  obtain ⟨hacc, sp, hsp, htakes⟩ := hrec
  have hok : (takeEntity (.sure p now) x e sp).2 = .ok () := WorkerState.addEntity_takes (fun _ => rfl) htakes x _
  unfold send
  simp only [hst]
  rcases htg with ⟨_, h⟩ | ⟨lexec, _, hn, hl, hr, hp⟩
  · have hmem : p ∈ st.otherWorkers.keys := Finmap.mem_keys.mpr (Finmap.mem_iff.mpr ⟨_, h⟩)
    have hne : st.otherWorkers.keys ≠ ∅ := Finset.ne_empty_of_mem hmem
    have hch : (Choice.sure p now).rng.choose st.otherWorkers.keys = some p := Rng.prefer_choose hmem
    simp only [if_neg hne, hch, h]
    obtain ⟨hran, hans⟩ := Cluster.execute_delivered (Choice.sure p now).micros (takeEntity (.sure p now) x e) hacc
    exact ⟨hran, hans sp hsp () hok⟩
  · have hmem : p ∈ c.leader.workers.keys.filter fun r => ctx.wentThroughWorker r = false :=
      Finset.mem_filter.mpr ⟨Finmap.mem_keys.mpr (Finmap.mem_iff.mpr ⟨_, hr⟩), hp⟩
    have hch : (Choice.sure p now).rng.choose
        (c.leader.workers.keys.filter fun r => ctx.wentThroughWorker r = false) = some p := Rng.prefer_choose hmem
    simp only [if_pos hn, hl]
    obtain ⟨hran, hans⟩ := Cluster.execute_delivered (Choice.sure p now).micros (takeEntity (.sure p now) x e)
      ((Cluster.accepts_fromLeader c p exec exec ctx).mpr hacc)
    have hproxy : proxyTakeEntity ctx (.sure p now) x e c =
        c.execute exec .delivered (Choice.sure p now).micros (Cluster.fromLeader exec ctx) p
          (takeEntity (.sure p now) x e) := by
      simp only [proxyTakeEntity, hch, hr]
      rfl
    cases lexec with
    | «local» =>
      simp only [Exec.call, hproxy]
      refine ⟨hran, ?_⟩
      rw [hans sp hsp () hok]
      rfl
    | remote =>
      change RanAt p _ c (proxyTakeEntity ctx (.sure p now) x e c).1 ∧ (proxyTakeEntity ctx (.sure p now) x e c).2 = _
      rw [hproxy]
      exact ⟨hran, hans sp hsp () hok⟩

/-- as `Choice.sure`, but every remote answer is lost -/
def Choice.silent (p : WorkerId) (now : UInt32) : Choice :=
  { Choice.sure p now with
    leaderFate := .replyLost (.networkError "connection lost"), workerFate := .replyLost (.networkError "connection lost") }

/-- with a remote executor on the way, the entity can reach the target while the sender sees an error -/
theorem send_silent {w p : WorkerId} {ctx : Context} {c : Cluster} {st : WorkerState} {exec : Exec} {direct : Prop}
    (x : EntityName) (e : Entity) (now : UInt32) (hst : c.stateOf w = some st) (htg : Target c st ctx p exec direct)
    (hacc : Accepts c p exec ctx) (hd : ¬ direct) :
    RanAt p (takeEntity (.silent p now) x e) c (send w ctx (.silent p now) x e c).1 ∧
      ∃ err, (send w ctx (.silent p now) x e c).2 = .error err := by
  have hexec : ∀ ctx', Accepts c p exec ctx' →
      RanAt p (takeEntity (.silent p now) x e) c (c.execute exec (Choice.silent p now).workerFate
        (Choice.silent p now).micros ctx' p (takeEntity (.silent p now) x e)).1 ∧
        (exec = .remote → ∃ err, (c.execute exec (Choice.silent p now).workerFate (Choice.silent p now).micros ctx' p
          (takeEntity (.silent p now) x e)).2 = .error err) := by
    intro ctx' h
    cases exec with
    | «local» => exact ⟨(Cluster.execute_delivered _ (takeEntity (.silent p now) x e) h).1, fun hx => by cases hx⟩
    | remote =>
      obtain ⟨hran, herr⟩ := Cluster.execute_replyLost (Choice.silent p now).micros (takeEntity (.silent p now) x e)
        (.networkError "connection lost") h
      exact ⟨hran, fun _ => ⟨_, herr⟩⟩
  unfold send
  simp only [hst]
  rcases htg with ⟨_, h⟩ | ⟨lexec, _, hn, hl, hr, hp⟩
  · have hmem : p ∈ st.otherWorkers.keys := Finmap.mem_keys.mpr (Finmap.mem_iff.mpr ⟨_, h⟩)
    have hne : st.otherWorkers.keys ≠ ∅ := Finset.ne_empty_of_mem hmem
    have hch : (Choice.silent p now).rng.choose st.otherWorkers.keys = some p := Rng.prefer_choose hmem
    simp only [if_neg hne, hch, h]
    obtain ⟨hran, herr⟩ := hexec ctx hacc
    cases exec with
    | «local» => exact absurd rfl hd
    | remote => exact ⟨hran, herr rfl⟩
  · have hmem : p ∈ c.leader.workers.keys.filter fun r => ctx.wentThroughWorker r = false :=
      Finset.mem_filter.mpr ⟨Finmap.mem_keys.mpr (Finmap.mem_iff.mpr ⟨_, hr⟩), hp⟩
    have hch : (Choice.silent p now).rng.choose
        (c.leader.workers.keys.filter fun r => ctx.wentThroughWorker r = false) = some p := Rng.prefer_choose hmem
    obtain ⟨hran, herr⟩ := hexec (Cluster.fromLeader exec ctx) ((Cluster.accepts_fromLeader c p exec exec ctx).mpr hacc)
    have hproxy : proxyTakeEntity ctx (.silent p now) x e c =
        c.execute exec (Choice.silent p now).workerFate (Choice.silent p now).micros (Cluster.fromLeader exec ctx) p
          (takeEntity (.silent p now) x e) := by
      simp only [proxyTakeEntity, hch, hr]
    simp only [if_pos hn, hl]
    cases lexec with
    | remote =>
      rw [← hproxy] at hran
      exact ⟨hran, _, rfl⟩
    | «local» =>
      cases exec with
      | «local» => exact absurd ⟨rfl, rfl⟩ hd
      | remote =>
        obtain ⟨err, herr⟩ := herr rfl
        simp only [Exec.call, hproxy]
        exact ⟨hran, .otherOf err, by rw [herr]; rfl⟩

/-- a listing may start with any name in memory -/
theorem exists_listing {st : WorkerState} {x : EntityName} {e : Entity} (h : st.inMemory x = some e) :
    st.part.isSome = true ∧ ∃ rest, st.Listing (x :: rest) := by
  obtain ⟨part, hp, hx⟩ := Option.bind_eq_some_iff.mp h
  have hmem : x ∈ part.entities.keys := Finmap.mem_keys.mpr (Finmap.mem_iff.mpr ⟨e, hx⟩)
  have hcard : (x :: (part.entities.keys.erase x).toList).length = part.entities.keys.card := by
    rw [List.length_cons, Finset.length_toList, Finset.card_erase_add_one hmem]
  refine ⟨by rw [hp]; rfl, (part.entities.keys.erase x).toList ++ ((part.archive.map Finmap.keys).getD ∅).toList, ?_⟩
  unfold WorkerState.Listing
  simp only [hp]
  rw [← List.cons_append, ← hcard, List.take_left, List.drop_left]
  refine ⟨?_, Finset.coe_toList _⟩
  rw [← Multiset.cons_coe, Finset.coe_toList, Finset.erase_val, Multiset.cons_erase hmem]

/-- the end of a run whose first round handles `x` -/
theorem migrateEntities_first {w : WorkerId} {ctx : Context} {c c₁ : Cluster} {st : WorkerState} {x : EntityName}
    {ch : Choice} {ans : Except Error Unit} (rest : List (EntityName × Choice)) (hst : c.stateOf w = some st)
    (hp : st.part.isSome = true)
    (h : migrateEntity st.config.entityMigrationCooldownSecs w ctx x ch c = (c₁, ans))
    (hgone : ans = .ok () → c₁.inMemory w x = none) (v : WorkerId) :
    (migrateEntities w ctx ((x, ch) :: rest) c).1.copyOf v x = c₁.copyOf v x := by
  have ht := migrateEntity_touches st.config.entityMigrationCooldownSecs ctx x ch hst
  rw [h] at ht
  obtain ⟨st₁, hst₁, -⟩ := ht.state hst
  simp only [migrateEntities, hst, hp, if_true, migrateLoop, h]
  cases ans with
  | error err => rfl
  | ok u => exact migrateLoop_gone _ rest hst₁ (hgone rfl) v

theorem send_stranded {w : WorkerId} {st : WorkerState} {c : Cluster} (ctx : Context) (ch : Choice) (x : EntityName)
    (e : Entity) (hst : c.stateOf w = some st) (h : ¬ HasRoute st) : send w ctx ch x e c = (c, .ok ()) := by
  have hk : st.otherWorkers.keys = ∅ := by
    by_contra hk
    exact h (.inl hk)
  unfold send
  simp only [hst, if_pos hk]
  split
  · rename_i exec hl
    exact absurd (.inr ⟨exec, hl⟩) h
  · rfl

/-- reading the entity first: the round goes on to the hand-over in a state that differs by the access time -/
theorem first_read {w : WorkerId} {c : Cluster} {st : WorkerState} {x : EntityName} {e : Entity} {now : UInt32}
    (hst : c.stateOf w = some st) (he : st.inMemory x = some e)
    (hcool : coolingDown st.config.entityMigrationCooldownSecs now e = false) :
    ∃ c₁ st₁ e', Touches x c c₁ ∧ c₁.stateOf w = some st₁ ∧ WorkerState.Touches x st st₁ ∧
      (∀ p exec ctx, Receives c p exec ctx → Receives c₁ p exec ctx) ∧ e'.data = e.data ∧
      c₁.inMemory w x = some e' ∧ c₁.archived w x = st.archived x ∧ SameElsewhere w x c c₁ ∧
      ∀ ctx ch, ch.now = now →
        migrateEntity st.config.entityMigrationCooldownSecs w ctx x ch c = handOver w ctx ch x e' c₁ := by
  obtain ⟨hl, ha, hr, -⟩ := onManager_spec (WorkerState.getEntity now x) hst
  have ht := onManager_touches hst (WorkerState.getEntity_touches now x)
  rcases onManager_get now x hst with ⟨hn, -⟩ | ⟨e₀, e', he₀, hok, hd, hlm, he', har, helse⟩
  · rw [inMemory_of_stateOf hst, he] at hn
    cases hn
  · rw [inMemory_of_stateOf hst, he, Option.some.injEq] at he₀
    subst he₀
    obtain ⟨st₁, hst₁, hts⟩ := ht.state hst
    refine ⟨_, st₁, e', ht, hst₁, hts, ?_, hd, he', har.trans (archived_of_stateOf hst x), helse, ?_⟩
    · rintro p exec ctx ⟨hacc, sp, hsp, htakes⟩
      obtain ⟨sp₁, hsp₁, htp⟩ := ht.state hsp
      exact ⟨(ha p exec ctx).mpr hacc, sp₁, hsp₁, (takes_congr htp).mpr htakes⟩
    · intro ctx ch hch
      have hcool' : coolingDown st.config.entityMigrationCooldownSecs now e' = false := by
        unfold coolingDown at hcool ⊢
        rwa [hlm]
      unfold migrateEntity
      rw [hch]
      generalize onManager w (WorkerState.getEntity now x) c = r at hok
      obtain ⟨c₁, ans⟩ := r
      simp only at hok
      subst hok
      simp only [hcool', Bool.false_eq_true, if_false]

theorem not_conserved_of_two (x : EntityName) {c c' : Cluster} {v w : WorkerId} (hne : v ≠ w) (hv : c'.Holds v x)
    (hw : c'.Holds w x) : ¬ Conserved c c' := fun h => hne (h.unique x v w hv hw)

theorem not_conserved_of_lost {c c' : Cluster} {x : EntityName} {w : WorkerId} {e : Entity} (hu : c.Unique)
    (he : c.copyOf w x = some e) (ho : ∀ v, v ≠ w → c'.copyOf v x = none)
    (hw : ∀ e', c'.copyOf w x = some e' → e'.data ≠ e.data) : ¬ Conserved c c' := by
  intro h
  have hheld : c.Holds w x := Option.isSome_of_eq_some he
  obtain ⟨v, e', hv, he', hd⟩ := h.kept x w e ⟨hheld, fun u hu' => hu x u w hu' hheld⟩ he
  by_cases hvw : v = w
  · exact hw e' (hvw ▸ he') hd
  · rw [ho v hvw] at he'
    cases he'

/-- a run of the handler that starts with `x` under the given choice -/
theorem exists_run {w : WorkerId} {c : Cluster} {st : WorkerState} {x : EntityName} {e : Entity} (ch : Choice)
    (hst : c.stateOf w = some st) (he : st.inMemory x = some e) :
    st.part.isSome = true ∧ ∃ rest, Lists c w ((x, ch) :: rest) := by
  obtain ⟨hp, rest, hrest⟩ := exists_listing he
  refine ⟨hp, rest.map fun y => (y, ch), fun st' hst' _ => ?_⟩
  rw [← Option.some.inj (hst.symm.trans hst')]
  simpa [Function.comp_def] using hrest

/-- an accepted target puts the entity in its store; what it had of others, and every other worker, stays -/
theorem take_stores {p : WorkerId} {ch : Choice} {x : EntityName} {e : Entity} {c c' : Cluster}
    (hload : ∀ b, ch.load b = .ok ()) (h : RanAt p (takeEntity ch x e) c c') {sp : WorkerState}
    (hsp : c.stateOf p = some sp) (htakes : sp.Takes) :
    SameElsewhere p x c c' ∧ ∃ e', e'.data = e.data ∧
      if sp.createsToArchive then c'.archived p x = some e' ∧ c'.inMemory p x = c.inMemory p x
      else c'.inMemory p x = some e' ∧ c'.archived p x = c.archived p x := by
  have hok : (takeEntity ch x e sp).2 = .ok () := WorkerState.addEntity_takes hload htakes x _
  rcases ranAt_take h hsp with ⟨-, err, herr⟩ | ⟨-, -, helse, hstored⟩
  · rw [hok] at herr
    cases herr
  · exact ⟨helse, hstored⟩

theorem holds_of_stored {p : WorkerId} {x : EntityName} {e' : Entity} {c c' : Cluster} {sp : WorkerState}
    (h : if sp.createsToArchive then c'.archived p x = some e' ∧ c'.inMemory p x = c.inMemory p x
      else c'.inMemory p x = some e' ∧ c'.archived p x = c.archived p x) : c'.Holds p x := by
  unfold Cluster.Holds
  rw [Cluster.copyOf_eq]
  split_ifs at h
  · rw [h.1]
    cases c'.inMemory p x <;> rfl
  · rw [h.1]
    rfl

/-- **When migration conserves entities.** From a state in which no name is held twice, every run of the handler, with
any listing order, random choices, clock readings and call outcomes, conserves the entities exactly when the state is
safe for the context the handler runs with. -/
theorem migration_conserves_iff (c : Cluster) (w : WorkerId) (ctx : Context) (hu : c.Unique) :
    (∀ listed, Lists c w listed → Conserved c (migrateEntities w ctx listed c).1) ↔ Safe c w ctx := by
  constructor
  · intro h st x e hst hmem hmov
    obtain ⟨now, hcool⟩ := hmov
    have hcopy : c.copyOf w x = some e := copyOf_inMemory ((inMemory_of_stateOf hst x).trans hmem)
    have hholds : c.Holds w x := Option.isSome_of_eq_some hcopy
    obtain ⟨c₁, st₁, e₁, ht, hst₁, hts, hrec₁, hd₁, he₁, har₁, helse₁, hround⟩ := first_read hst hmem hcool
    have hnone₁ : ∀ v, v ≠ w → c₁.inMemory v x = none ∧ c₁.archived v x = none := fun v hv => by
      rw [(helse₁ v hv).1, (helse₁ v hv).2]
      exact inMemory_none (copyOf_none_of_ne hu hholds hv)
    -- once the live copy is removed, the sender is left with what its archive had
    have hlost : ∀ ch c₂, ch.now = now → send w ctx ch x e₁ c₁ = (c₂, .ok ()) → (∃ e₂, c₂.inMemory w x = some e₂) →
        c₂.archived w x = st.archived x →
        ∃ rest, Lists c w ((x, ch) :: rest) ∧
          (∀ v, v ≠ w → (migrateEntities w ctx ((x, ch) :: rest) c).1.copyOf v x = c₂.copyOf v x) ∧
          (migrateEntities w ctx ((x, ch) :: rest) c).1.copyOf w x = st.archived x := by
      rintro ch c₂ hnow hsend ⟨e₂, he₂⟩ har₂
      obtain ⟨hp, rest, hlist⟩ := exists_run ch hst hmem
      obtain ⟨-, hok, hn, ha, helse⟩ := onManager_remove he₂
      have hr : migrateEntity st.config.entityMigrationCooldownSecs w ctx x ch c =
          ((onManager w (WorkerState.removeEntity x) c₂).1, .ok ()) := by
        simp only [hround ctx ch hnow, handOver, hsend]
        exact Prod.ext rfl hok
      have hend := migrateEntities_first rest hst hp hr (fun _ => hn)
      refine ⟨rest, hlist, fun v hv => ?_, ?_⟩
      · rw [hend, copyOf_congr (helse v hv).1 (helse v hv).2]
      · rw [hend, copyOf_archived hn, ha, har₂]
    have hbacked : ∀ ch c₂, ch.now = now → send w ctx ch x e₁ c₁ = (c₂, .ok ()) →
        (∃ e₂, c₂.inMemory w x = some e₂) → c₂.archived w x = st.archived x → SameElsewhere w x c₁ c₂ →
        Backed st x e := by
      intro ch c₂ hnow hsend he₂ har₂ helse₂
      obtain ⟨rest, hlist, hv, hw⟩ := hlost ch c₂ hnow hsend he₂ har₂
      by_contra hb
      refine not_conserved_of_lost hu hcopy (fun v hvw => ?_) (fun e' he' hd => ?_) (h _ hlist)
      · rw [hv v hvw, copyOf_congr (helse₂ v hvw).1 (helse₂ v hvw).2, copyOf_archived (hnone₁ v hvw).1]
        exact (hnone₁ v hvw).2
      · rw [hw] at he'
        exact hb ⟨e', he', hd⟩
    refine ⟨fun p exec direct htg hrec => ?_, fun hr => ?_⟩
    · have htg₁ : Target c₁ st₁ ctx p exec direct := (target_congr ht.leader hts).mpr htg
      obtain ⟨hacc₁, sp, hsp, htakes⟩ := hrec₁ p exec ctx hrec
      unfold MayGo
      split_ifs with hpw
      · -- the sender as target: overwritten, then removed
        subst hpw
        have hsps : sp = st₁ := Option.some.inj (hsp.symm.trans hst₁)
        subst hsps
        by_cases hc : st.createsToArchive = true
        · exact .inl hc
        · obtain ⟨hran, hok⟩ := send_reaches x e₁ now hst₁ htg₁ ⟨hacc₁, sp, hst₁, htakes⟩
          obtain ⟨helse, e', -, hstored⟩ := take_stores (fun _ => rfl) hran hst₁ htakes
          rw [hts.creates, if_neg hc] at hstored
          exact .inr (hbacked (.sure p now) _ rfl (Prod.ext rfl hok) ⟨e', hstored.1⟩ (hstored.2.trans har₁) helse)
      · by_contra hmay
        by_cases hdir : direct
        · -- the archive of the sender keeps a copy
          have har : st.archived x ≠ none := fun hn => hmay ⟨hdir, hn⟩
          obtain ⟨hran, hok⟩ := send_reaches x e₁ now hst₁ htg₁ ⟨hacc₁, sp, hsp, htakes⟩
          obtain ⟨helse, e', -, hstored⟩ := take_stores (fun _ => rfl) hran hsp htakes
          have hw := helse w (Ne.symm hpw)
          obtain ⟨rest, hlist, hv, hwc⟩ := hlost (.sure p now) _ rfl (Prod.ext rfl hok) ⟨e₁, hw.1.trans he₁⟩
            (hw.2.trans har₁)
          refine not_conserved_of_two x hpw ?_ ?_ (h _ hlist)
          · rw [Cluster.Holds, hv p hpw]
            exact holds_of_stored hstored
          · rw [Cluster.Holds, hwc]
            exact Option.isSome_iff_ne_none.mpr har
        · -- the answer is lost and the sender keeps its live copy
          obtain ⟨hran, err, herr⟩ := send_silent x e₁ now hst₁ htg₁ hacc₁ hdir
          obtain ⟨helse, e', -, hstored⟩ := take_stores (fun _ => rfl) hran hsp htakes
          obtain ⟨hp, rest, hlist⟩ := exists_run (.silent p now) hst hmem
          have hr : migrateEntity st.config.entityMigrationCooldownSecs w ctx x (.silent p now) c =
              ((send w ctx (.silent p now) x e₁ c₁).1, .error err) := by
            rw [hround ctx (.silent p now) rfl, handOver]
            generalize send w ctx (.silent p now) x e₁ c₁ = r at herr
            obtain ⟨c₂, ans⟩ := r
            simp only at herr
            rw [herr]
          have hend := migrateEntities_first rest hst hp hr (fun h => by cases h)
          refine not_conserved_of_two x hpw ?_ ?_ (h _ hlist)
          · rw [Cluster.Holds, hend]
            exact holds_of_stored hstored
          · rw [Cluster.Holds, hend, copyOf_inMemory ((helse w (Ne.symm hpw)).1.trans he₁)]
            rfl
    · -- nothing is sent and the live copy is removed
      have hr₁ : ¬ HasRoute st₁ := fun hr' =>
        hr (hr'.imp (fun hn => hts.otherWorkers ▸ hn) (fun hn => hts.leader ▸ hn))
      exact hbacked (.sure w now) c₁ rfl (send_stranded ctx _ x e₁ hst₁ hr₁) ⟨e₁, he₁⟩ har₁ fun _ _ => ⟨rfl, rfl⟩
  · intro hsafe listed _
    unfold migrateEntities
    cases hst : c.stateOf w with
    | none => exact conserved_of_same hu fun _ _ => rfl
    | some st =>
      simp only
      split_ifs
      · exact migrateLoop_safe listed hu hsafe hst
      · exact conserved_of_same hu fun _ _ => rfl

/-! ## Two clusters -/

def ball : Entity := ⟨Storage.default.insert ("position", "x") (.int 3), ["position"], ⟨none, none⟩⟩

/-- an initialized worker without an archive -/
def node (held : FnvHashMap EntityName Entity) (leader : LeaderSituation)
    (otherWorkers : FnvHashMap WorkerId WorkerSituation) : WorkerNode where
  state :=
    { config := ⟨{ PartConfig.default with enableArchive := false }, some 3⟩
      model := some ⟨[], [], [], []⟩
      part := some { Partition.new { PartConfig.default with enableArchive := false } ∅ with entities := held }
      disk := ∅, leader, otherWorkers }
  seen := ∅

/-- two workers connected as local peers; the first holds the ball -/
def pair : Cluster where
  leader := ⟨none, ∅⟩
  workers :=
    Finmap.insert 0 (node (Finmap.singleton "ball" ball) .unaware (Finmap.singleton 1 (.connected .local)))
      (Finmap.singleton 1 (node ∅ .unaware (Finmap.singleton 0 (.connected .local))))

/-- one worker, connected to the leader over the network both ways; it holds the ball -/
def alone : Cluster where
  leader := ⟨none, Finmap.singleton 0 .remote⟩
  workers := Finmap.singleton 0 (node (Finmap.singleton "ball" ball) (.connected .remote) ∅)

/-- the context of a `MigrateEntities` that the leader sends over the network -/
def viaLeader : Context := .new (.v4 9) 0 (.participant .leader)

theorem pair_stateOf_zero : pair.stateOf 0 =
    some (node (Finmap.singleton "ball" ball) .unaware (Finmap.singleton 1 (.connected .local))).state := by
  simp [Cluster.stateOf, pair]

theorem pair_unique : pair.Unique := by
  have h0 : ∀ v x, pair.Holds v x → v = 0 := by
    intro v x h
    obtain ⟨e, he⟩ := Option.isSome_iff_exists.mp h
    have hv : v ∈ ({0, 1} : Finset WorkerId) := Cluster.mem_keys_of_copyOf he
    simp only [Finset.mem_insert, Finset.mem_singleton] at hv
    rcases hv with rfl | rfl
    · rfl
    · simp [Cluster.copyOf, Cluster.stateOf, pair, node, WorkerState.copyOf, WorkerState.inMemory,
        WorkerState.archived, Partition.archived, Partition.new, PartConfig.default] at he
  intro x v w hv hw
  rw [h0 v x hv, h0 w x hw]

/-- a worker without an archive that has one local peer and no one else to send to -/
theorem safeFor_of_peer {c : Cluster} {w p : WorkerId} {st : WorkerState} (ctx : Context) (x : EntityName) (e : Entity)
    (hpeer : st.otherWorkers = Finmap.singleton p (.connected .local)) (hne : p ≠ w) (ha : st.archived x = none) :
    SafeFor c w ctx st x e := by
  have hk : st.otherWorkers.keys ≠ ∅ := by
    rw [hpeer]
    simp
  refine ⟨?_, fun h => absurd (.inl hk) h⟩
  rintro q exec direct (⟨_, h⟩ | ⟨_, _, hn, -⟩) -
  · rw [hpeer] at h
    obtain rfl : q = p := by simpa using FnvHashMap.mem_keys h
    have hexec : exec = .local := by simpa using h.symm
    unfold MayGo
    rw [if_neg hne]
    exact ⟨hexec, ha⟩
  · exact absurd hn hk

theorem pair_safe (ctx : Context) : Safe pair 0 ctx := by
  intro st x e hst _ _
  rw [pair_stateOf_zero, Option.some.injEq] at hst
  subst hst
  exact safeFor_of_peer ctx x e rfl (by decide) rfl

/-- the ball moves from one local peer to the other -/
theorem pair_conserves :
    Conserved pair (migrateEntities 0 viaLeader [("ball", .sure 1 100)] pair).1 := by
  refine (migration_conserves_iff pair 0 viaLeader pair_unique).mpr (pair_safe viaLeader) _ fun st hst _ => ?_
  rw [pair_stateOf_zero, Option.some.injEq] at hst
  subst hst
  decide

/-- **Migration loses an entity.** The only worker of the cluster gets `MigrateEntities` over the network, so it has no
hop in the context; the leader's random choice falls on the worker itself, which takes its own entity and then removes
it. -/
theorem migration_loses_entity :
    ¬ ∀ (c : Cluster) (w : WorkerId) (ctx : Context) (listed : List (EntityName × Choice)),
      c.Unique → Lists c w listed → Conserved c (migrateEntities w ctx listed c).1 := by
  intro h
  have hone : ∀ v x, alone.Holds v x → v = 0 := by
    intro v x hv
    obtain ⟨e, he⟩ := Option.isSome_iff_exists.mp hv
    simpa [alone] using Cluster.mem_keys_of_copyOf he
  have hcons := h alone 0 viaLeader [("ball", .sure 0 100)] (fun x v w hv hw => by rw [hone v x hv, hone w x hw])
    fun st hst _ => by
      obtain rfl : _ = st := Option.some.inj hst
      decide
  obtain ⟨v, e, -, he, -⟩ := hcons.kept "ball" 0 ball ⟨by decide, fun u hu => hone u "ball" hu⟩ rfl
  have hkeys : (migrateEntities 0 viaLeader [("ball", .sure 0 100)] alone).1.workers.keys = {0} := by decide
  have hlost : (migrateEntities 0 viaLeader [("ball", .sure 0 100)] alone).1.copyOf 0 "ball" = none := by decide
  have hv : v = 0 := by simpa [hkeys] using Cluster.mem_keys_of_copyOf he
  rw [hv, hlost] at he
  cases he

end BigWorlds.Migration
