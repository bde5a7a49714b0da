/-
A worker that joins a leader over the network (`ConnectToLeader` of `worker/mod.rs`, `IntroduceWorker` of
`leader/mod.rs`, `AddWorker` of `leader/manager.rs`). The leader's manager first sends the model it has to the new
worker, on the connection the worker has opened, and waits for the answer; the worker accepts streams on that connection
only when the leader has answered its introduction.

- `Held`: a manager is busy exactly while one handler is inside its `AddWorker`, `PullModel` or `SetModel`;
- `join_with_model_stuck`: a leader that has a model never enters a worker that joins, and once it has taken the join,
  nothing but the failure of the connection lets its manager take another request.
-/
import BigWorlds.Core.Lock
import BigWorlds.Membership.Effects

namespace BigWorlds.Membership

variable {α : Type}

/-! ## Who holds a manager -/

namespace System

def busy (s : System α) (l : LeaderId) : Bool := (s.leader l).busy

def holdingAt (s : System α) (i : ℕ) : Option LeaderId := (s.tasks[i]?).bind Task.holding

variable {s : System α}

theorem holdingAt_addTask {t : Task α} (ht : t.holding = none) : (s.addTask t).holdingAt = s.holdingAt := by
  funext j
  unfold holdingAt addTask
  rcases lt_trichotomy j s.tasks.length with hj | rfl | hj
  · rw [List.getElem?_append_left hj]
  · simp [ht]
  · rw [List.getElem?_append_right hj.le, List.getElem?_eq_none hj.le, List.getElem?_eq_none]
    simp only [List.length_singleton]
    omega

theorem holdingAt_setTask {i : ℕ} {u : Task α} (hi : s.tasks[i]? = some u) (t : Task α) :
    (s.setTask i t).holdingAt = Function.update s.holdingAt i t.holding := by
  funext j
  unfold holdingAt setTask
  have hlt : i < s.tasks.length := (List.getElem?_eq_some_iff.mp hi).1
  rw [Function.update_apply]
  split_ifs with h
  · subst h
    simp [hlt]
  · simp [List.getElem?_set_ne (Ne.symm h)]

theorem holdingAt_eq {i : ℕ} {u : Task α} (hi : s.tasks[i]? = some u) : s.holdingAt i = u.holding := by
  simp [holdingAt, hi]

theorem busy_onLeader (l : LeaderId) (f : Leader α → Leader α) :
    (s.onLeader l f).busy = Function.update s.busy l (f (s.leader l)).busy := by
  funext k
  rw [Function.update_apply]
  unfold busy
  rw [leader_onLeader]
  split_ifs <;> rfl

end System

/-- a manager is busy exactly while one handler, and one only, is inside its `AddWorker`, `PullModel` or `SetModel` -/
structure Held (s : System α) : Prop where
  lock : Core.Locked s.busy s.holdingAt
  /-- what was not spawned does nothing -/
  unspawned : ∀ l ∉ s.leaders, (s.leader l).running = false ∧ s.busy l = false ∧ (s.leader l).model = none

variable {s : System α}

/-- what a message does about the managers: nothing, it takes one that is free, or it gives one back -/
inductive Manages (s : System α) (t : Task α) (c : Change α) (t' : Task α) : Prop where
  | keeps (hholding : t'.holding = t.holding) (hbusy : (s.apply c).busy = s.busy)
  | takes (l : LeaderId) (hfree : (s.leader l).free = true) (hbefore : t.holding = none)
    (hafter : t'.holding = some l) (hbusy : (s.apply c).busy = Function.update s.busy l true)
  | gives (l : LeaderId) (hbefore : t.holding = some l) (hafter : t'.holding = none)
    (hbusy : (s.apply c).busy = Function.update s.busy l false)

theorem Leader.not_busy {ld : Leader α} (h : ld.free = true) : ld.busy = false := by
  simpa [Leader.free] using (Bool.and_eq_true_iff.mp h).2

theorem afterAdding_holding (w : WorkerId) (l : LeaderId) (waiting : Waiting) (accepted : Bool) :
    (afterAdding (α := α) w l waiting accepted).holding = none := by
  cases waiting with
  | register => rfl
  | callWorker => rfl
  | join forOrphan => cases forOrphan <;> cases accepted <;> rfl

theorem Adds.holding {l : LeaderId} {w : WorkerId} {t : Task α} {link : Link} {entry : Registered α}
    {waiting : Waiting} {added : Task α} (h : Adds l w t link entry waiting added) :
    t.holding = none ∧ added.holding = none := by
  cases h <;> exact ⟨rfl, rfl⟩

theorem Moves.manages {ok : Bool} {t t' : Task α} {c : Change α} (h : Moves s ok t c t') : Manages s t c t' := by
  cases h with
  | ends t hholding => exact .keeps hholding.symm rfl
  | keepsLeader l w duplex t' ht' => exact .keeps (by rcases ht' with rfl | rfl <;> rfl) rfl
  | takesLeader l w duplex t' ht' => exact .keeps (by rcases ht' with rfl | rfl <;> rfl) rfl
  | viewed l w address rest t' ht' => exact .keeps (by rcases ht' with rfl | rfl <;> rfl) rfl
  | joined w l model => exact .keeps (by cases model <;> rfl) rfl
  | enters hadds hfree =>
    refine .keeps (hadds.holding.2.trans hadds.holding.1.symm) ?_
    simp only [System.apply, System.busy_onLeader]
    exact Function.update_eq_self_iff.mpr (Leader.not_busy hfree).symm
  | holds model hadds hfree =>
    refine .takes _ hfree hadds.holding.1 rfl ?_
    simp only [System.apply, System.busy_onLeader]
  | pulls l model hfree =>
    refine .takes l hfree rfl rfl ?_
    simp only [System.apply, System.busy_onLeader]
  | accepts l w entry waiting =>
    refine .gives l rfl (afterAdding_holding w l waiting true) ?_
    simp only [System.apply, System.busy_onLeader]
  | refuses l w entry waiting accepted =>
    refine .gives l rfl (afterAdding_holding w l waiting false) ?_
    simp only [System.apply, System.busy_onLeader]
  | propagated l model rest =>
    refine .gives l rfl rfl ?_
    simp only [System.apply, System.busy_onLeader]
  | _ => exact .keeps rfl rfl

/-- a model is pulled by a manager that runs -/
theorem Moves.model {ok : Bool} {t t' : Task α} {c : Change α} (h : Moves s ok t c t') {l : LeaderId}
    (hl : (s.leader l).running = false) : ((s.apply c).leader l).model = (s.leader l).model := by
  refine s.model_apply_eq fun model hc => ?_
  subst hc
  cases h with
  | pulls _ _ hfree =>
    rw [(Bool.and_eq_true_iff.mp hfree).1] at hl
    cases hl

namespace Held

theorem spawned (h : Held s) {l : LeaderId} (hfree : (s.leader l).free = true) : l ∈ s.leaders := by
  by_contra hl
  have hrun : (s.leader l).running = true := (Bool.and_eq_true_iff.mp hfree).1
  rw [(h.unspawned l hl).1] at hrun
  cases hrun

/-- where the managers are as busy as before, and by the same handlers -/
theorem frame (h : Held s) {s' : System α} (hbusy : s'.busy = s.busy) (hholding : s'.holdingAt = s.holdingAt)
    (hleaders : s'.leaders = s.leaders) (hrunning : ∀ l, (s.leader l).running = false → (s'.leader l).running = false)
    (hmodel : ∀ l, (s'.leader l).model = (s.leader l).model) : Held s' where
  lock := by
    rw [hbusy, hholding]
    exact h.lock
  unspawned l hl := by
    obtain ⟨hr, hb, hm⟩ := h.unspawned l (hleaders ▸ hl)
    exact ⟨hrunning l hr, by rw [hbusy, hb], by rw [hmodel, hm]⟩

theorem onWorker (h : Held s) (w : WorkerId) (f : Worker α → Worker α) : Held (s.onWorker w f) :=
  h.frame rfl rfl rfl (fun _ hr => hr) fun _ => rfl

/-- a change of a worker -/
theorem apply (h : Held s) {c : Change α} (hc : (s.apply c).leader = s.leader) : Held (s.apply c) := by
  refine h.frame ?_ ?_ (s.leaders_apply c) (fun l hl => ?_) fun l => by rw [hc]
  · funext l
    rw [System.busy, hc, System.busy]
  · funext i
    rw [System.holdingAt, System.tasks_apply, System.holdingAt]
  · rw [hc, hl]

theorem addTask (h : Held s) {t : Task α} (ht : t.holding = none) : Held (s.addTask t) :=
  h.frame rfl (System.holdingAt_addTask ht) rfl (fun _ hr => hr) fun _ => rfl

theorem setTask (h : Held s) {i : ℕ} {t u : Task α} (hi : s.tasks[i]? = some u) (hu : t.holding = u.holding) :
    Held (s.setTask i t) := by
  refine h.frame rfl ?_ rfl (fun _ hr => hr) fun _ => rfl
  rw [System.holdingAt_setTask hi, hu, ← System.holdingAt_eq hi, Function.update_eq_self]

theorem message (h : Held s) {i : ℕ} {t t' : Task α} {c : Change α} (hi : s.tasks[i]? = some t)
    (hc : Manages s t c t') (hmodel : ∀ l ∉ s.leaders, ((s.apply c).leader l).model = none) :
    Held ((s.apply c).setTask i t') := by
  have hholding : ((s.apply c).setTask i t').holdingAt = Function.update s.holdingAt i t'.holding := by
    rw [System.holdingAt_setTask (by rw [System.tasks_apply]; exact hi)]
    congr 1
    funext j
    rw [System.holdingAt, System.tasks_apply, System.holdingAt]
  have hbusy : ((s.apply c).setTask i t').busy = (s.apply c).busy := rfl
  have hat : s.holdingAt i = t.holding := System.holdingAt_eq hi
  have hleaders : ((s.apply c).setTask i t').leaders = s.leaders := s.leaders_apply c
  have hrunning : ∀ l ∉ s.leaders, (((s.apply c).setTask i t').leader l).running = false := by
    intro l hl
    rw [System.leader_setTask, System.running_apply]
    exact (h.unspawned l hl).1
  cases hc with
  | keeps hkeeps hsame =>
    refine ⟨?_, fun l hl => ⟨hrunning l (hleaders ▸ hl), ?_, hmodel l (hleaders ▸ hl)⟩⟩
    · rw [hholding, hbusy, hsame, hkeeps, ← hat, Function.update_eq_self]
      exact h.lock
    · rw [hbusy, hsame]
      exact (h.unspawned l (hleaders ▸ hl)).2.1
  | takes l hfree hbefore hafter htakes =>
    refine ⟨?_, fun k hk => ⟨hrunning k (hleaders ▸ hk), ?_, hmodel k (hleaders ▸ hk)⟩⟩
    · rw [hholding, hbusy, htakes, hafter]
      exact h.lock.take (hat.trans hbefore) (Leader.not_busy hfree)
    · rw [hbusy, htakes, Function.update_of_ne]
      · exact (h.unspawned k (hleaders ▸ hk)).2.1
      · rintro rfl
        exact hleaders ▸ hk <| h.spawned hfree
  | gives l hbefore hafter hgives =>
    refine ⟨?_, fun k hk => ⟨hrunning k (hleaders ▸ hk), ?_, hmodel k (hleaders ▸ hk)⟩⟩
    · rw [hholding, hbusy, hgives, hafter]
      exact h.lock.release (hat.trans hbefore)
    · rw [hbusy, hgives, Function.update_apply]
      split_ifs
      · rfl
      · exact (h.unspawned k (hleaders ▸ hk)).2.1

/-- a manager is changed, and is as busy as before -/
theorem onLeader (h : Held s) {l : LeaderId} {f : Leader α → Leader α}
    (hbusy : (f (s.leader l)).busy = (s.leader l).busy)
    (hrunning : (s.leader l).running = false → (f (s.leader l)).running = false)
    (hmodel : (f (s.leader l)).model = (s.leader l).model) : Held (s.onLeader l f) := by
  refine h.frame ?_ rfl rfl (fun k hk => ?_) fun k => ?_
  · rw [System.busy_onLeader, hbusy]
    exact Function.update_eq_self l s.busy
  · rw [System.leader_onLeader]
    split_ifs with heq
    · exact hrunning (heq ▸ hk)
    · exact hk
  · rw [System.leader_onLeader]
    split_ifs with heq
    · rw [heq, hmodel]
    · rfl

theorem effect (h : Held s) {o : Op α} {s' : System α} (he : Effect s o s') : Held s' := by
  cases he with
  | idle => exact h
  | command o t ht => exact h.addTask (by cases ht <;> rfl)
  | message i ok t c t' hi hmoves =>
    exact h.message hi hmoves.manages fun l hl => by rw [hmoves.model (h.unspawned l hl).1, (h.unspawned l hl).2.2]
  | viewSkips i id reached l w address rest hi => exact h.setTask hi rfl
  | viewFails i id reached l w address rest hi => exact h.setTask hi rfl
  | viewConnects i id l w address rest hi =>
    exact (h.apply (c := .addOtherWorker w id (.remote true)) rfl).setTask hi rfl
  | modelSent i id l model rest hi => exact (h.apply (c := .setModel id model) rfl).setTask hi rfl
  | modelRefused i id l model rest hi =>
    refine h.message hi (.gives l rfl rfl ?_) fun k hk => ?_
    · simp only [System.apply, System.busy_onLeader]
    · simp only [System.apply, System.leader_onLeader]
      split_ifs with heq
      · rw [← heq, (h.unspawned k hk).2.2]
      · exact (h.unspawned k hk).2.2
  | reconnects i l w address rest hi => exact h.setTask hi rfl
  | forks i l w hi hl =>
    refine Held.setTask (u := .fork w) ⟨?_, fun k hk => ?_⟩ hi rfl
    · have hbusy : Function.update s.busy l false = s.busy := by
        rw [← (h.unspawned l hl).2.1, Function.update_eq_self]
      refine cast ?_ h.lock
      congr 1
      funext k
      rw [← hbusy]
      simp only [System.busy, Function.update_apply]
      split_ifs <;> rfl
    · obtain ⟨hkl, hk'⟩ : k ≠ l ∧ k ∉ s.leaders := by simpa using hk
      simp only [System.busy, Function.update_of_ne hkl]
      exact h.unspawned k hk'
  | watches o w p => exact h.onWorker w _
  | orphaned w ok known =>
    have hset : Held (s.apply (.setLeader w { known with situation := .orphanedWaiting })) := h.apply rfl
    have hasleep : Held ((s.apply (.setLeader w { known with situation := .orphanedWaiting })).setWatcher w .asleep) :=
      hset.onWorker w _
    exact hasleep.addTask rfl
  | outvoted w ok known =>
    have hset : Held (s.apply (.setLeader w { known with situation := .election })) := h.apply rfl
    exact hset.onWorker w _
  | elects w other delivered rest =>
    have hset : Held (s.setWatcher w (.electing (rest.erase other))) := h.onWorker w _
    exact hset.addTask rfl
  | disconnects w reached l => exact h.onLeader rfl id rfl
  | cancelsWorker w => exact h.apply rfl
  | cancelsLeader l => exact h.onLeader rfl (fun _ => rfl) rfl

/-- every run -/
theorem run (h : Held s) (ops : List (Op α)) : Held (Core.run System.step s ops) :=
  Core.run_keeps (fun _ o hs => hs.effect (step_effect o)) h ops

end Held

theorem start_held (leaders : Finset LeaderId) (orphanFork : WorkerId → Bool) :
    Held (System.start (α := α) leaders orphanFork) where
  lock := ⟨fun l => by simp [System.start, System.busy, System.holdingAt],
    fun i j l hi => by simp [System.start, System.holdingAt] at hi⟩
  unspawned l hl := by simpa [System.start, System.busy] using hl

/-! ## A manager that is held -/

/-- a message that finds a manager busy enters nobody there and changes no model, unless its handler gives the manager
back -/
theorem Moves.frozen {ok : Bool} {t t' : Task α} {c : Change α} (h : Moves s ok t c t') {l : LeaderId}
    (hbusy : s.busy l = true) (hholds : ¬ (t.holding = some l ∧ t'.holding = none)) :
    ((s.apply c).leader l).workers = (s.leader l).workers ∧ ((s.apply c).leader l).model = (s.leader l).model := by
  have hidle : ∀ {k}, (s.leader k).free = true → k ≠ l := by
    rintro k hfree rfl
    have hnot : s.busy k = false := Leader.not_busy hfree
    rw [hbusy] at hnot
    cases hnot
  refine ⟨s.workers_apply fun w entry hc => ?_, s.model_apply_eq fun model hc => ?_⟩
  · subst hc
    cases h with
    | enters hadds hfree => exact hidle hfree rfl
    | accepts _ _ _ waiting => exact hholds ⟨rfl, afterAdding_holding w l waiting true⟩
  · subst hc
    cases h with
    | pulls _ _ hfree => exact hidle hfree rfl

/-- while a handler holds a manager and stays where it is, nobody is entered or removed there -/
theorem Held.frozen (h : Held s) {i : ℕ} {t : Task α} {l : LeaderId} (hi : s.tasks[i]? = some t)
    (ht : t.holding = some l) {o : Op α} {s' : System α} (he : Effect s o s') (hstill : s'.tasks[i]? = some t) :
    (s'.leader l).workers = (s.leader l).workers ∧ (s'.leader l).model = (s.leader l).model := by
  have hat : s.holdingAt i = some l := (System.holdingAt_eq hi).trans ht
  have hbusy : s.busy l = true := (h.lock.busy_iff l).mpr ⟨i, hat⟩
  cases he with
  | message j ok u c u' hj hmoves =>
    refine hmoves.frozen hbusy ?_
    rintro ⟨hu, hu'⟩
    -- it would be the handler that stays
    obtain rfl : j = i := h.lock.unique j i l ((System.holdingAt_eq hj).trans hu) hat
    have hlt : j < s.tasks.length := (List.getElem?_eq_some_iff.mp hj).1
    obtain rfl : u' = t := by simpa [System.setTask, hlt] using hstill
    rw [hu'] at ht
    cases ht
  | modelRefused j id k =>
    exact ⟨s.workers_apply (c := .release k) (by simp), s.model_apply_eq (c := .release k) (by simp)⟩
  | forks j k w hj hk =>
    have hne : l ≠ k := by
      rintro rfl
      rw [(h.unspawned l hk).2.1] at hbusy
      cases hbusy
    simp only [System.leader_setTask, Function.update_of_ne hne, and_self]
  | disconnects w reached k hfree =>
    rw [System.leader_onLeader, if_neg]
    · exact ⟨rfl, rfl⟩
    · rintro rfl
      have hidle : s.busy l = false := Leader.not_busy hfree
      rw [hbusy] at hidle
      cases hidle
  | cancelsLeader k =>
    rw [System.leader_onLeader]
    split_ifs with heq
    · exact ⟨by rw [heq], by rw [heq]⟩
    · exact ⟨rfl, rfl⟩
  | _ => exact ⟨rfl, rfl⟩

/-! ## Joins at a leader with a model -/

/-- what `IntroduceWorker` makes the leader enter -/
def Registered.byJoin (entry : Registered α) : Bool := entry.link == .remote true && entry.listeners.isEmpty

/-- a join waits on a connection that does not answer; nothing else is entered the way a join is -/
def Waiting.Unserved (link : Link) (entry : Registered α) : Waiting → Prop
  | .join _ => link = .remote false
  | _ => entry.byJoin = false

def Task.Unserved : Task α → Prop
  | .sendModel _ _ _ link entry waiting => waiting.Unserved link entry
  | .modelSent _ _ _ (.join _) accepted => accepted = false
  | .modelSent _ _ entry _ _ => entry.byJoin = false
  | _ => True

def Unserved (s : System α) : Prop := ∀ t ∈ s.tasks, t.Unserved

theorem afterAdding_unserved (w : WorkerId) (l : LeaderId) (waiting : Waiting) (accepted : Bool) :
    (afterAdding (α := α) w l waiting accepted).Unserved := by
  cases waiting with
  | register => trivial
  | callWorker => trivial
  | join forOrphan => cases forOrphan <;> cases accepted <;> trivial

theorem Adds.unserved {l : LeaderId} {w : WorkerId} {t : Task α} {link : Link} {entry : Registered α}
    {waiting : Waiting} {added : Task α} (h : Adds l w t link entry waiting added) :
    waiting.Unserved link entry ∧ added.Unserved := by
  cases h <;> exact ⟨rfl, trivial⟩

theorem Moves.unserved {ok : Bool} {t t' : Task α} {c : Change α} (h : Moves s ok t c t') (ht : t.Unserved) :
    t'.Unserved := by
  cases h with
  | stays => exact ht
  | keepsLeader l w duplex t' ht' => rcases ht' with rfl | rfl <;> trivial
  | takesLeader l w duplex t' ht' => rcases ht' with rfl | rfl <;> trivial
  | viewed l w address rest t' ht' => rcases ht' with rfl | rfl <;> trivial
  | enters hadds => exact hadds.unserved.2
  | holds model hadds => exact hadds.unserved.1
  | joined w l model => cases model <;> trivial
  | sends l w model link entry waiting hanswers =>
    cases waiting with
    | join forOrphan =>
      -- the worker does not answer yet
      obtain rfl : link = .remote false := ht
      cases hanswers
    | register => exact ht
    | callWorker => exact ht
  | sendFails l w model link entry waiting =>
    cases waiting with
    | join forOrphan => rfl
    | register => exact ht
    | callWorker => exact ht
  | accepts l w entry waiting => exact afterAdding_unserved w l waiting true
  | refuses l w entry waiting => exact afterAdding_unserved w l waiting false
  | _ => trivial

namespace Unserved

theorem setTask (h : Unserved s) (i : ℕ) {t : Task α} (ht : t.Unserved) : Unserved (s.setTask i t) :=
  fun u hu => (s.mem_setTask hu).elim (h u) fun heq => heq ▸ ht

theorem addTask (h : Unserved s) {t : Task α} (ht : t.Unserved) : Unserved (s.addTask t) :=
  fun u hu => (s.mem_addTask hu).elim (h u) fun heq => heq ▸ ht

theorem apply (h : Unserved s) (c : Change α) : Unserved (s.apply c) := by
  unfold Unserved
  rw [System.tasks_apply]
  exact h

theorem effect (h : Unserved s) {o : Op α} {s' : System α} (he : Effect s o s') : Unserved s' := by
  cases he with
  | command o t ht => exact h.addTask (by cases ht <;> trivial)
  | message i ok t c t' hi hmoves => exact (h.apply c).setTask i (hmoves.unserved (h t (List.mem_of_getElem? hi)))
  | viewSkips i => exact h.setTask i trivial
  | viewFails i => exact h.setTask i trivial
  | viewConnects i id l w => exact (h.apply (.addOtherWorker w id (.remote true))).setTask i trivial
  | modelSent i id l model => exact (h.apply (.setModel id model)).setTask i trivial
  | modelRefused i id l => exact (h.apply (.release l)).setTask i trivial
  | reconnects i => exact h.setTask i trivial
  | forks i => exact Unserved.setTask (s := { s with leaders := _, leader := _ }) h i trivial
  | orphaned w ok known =>
    exact (h.apply (.setLeader w { known with situation := .orphanedWaiting })).addTask trivial
  | elects w other => exact Unserved.addTask (s := s.setWatcher w _) h trivial
  | _ => exact h

end Unserved

/-- the workers that a leader has entered for a join -/
def Leader.joined (ld : Leader α) (w : WorkerId) (entry : Registered α) : Prop :=
  ld.workers.lookup w = some entry ∧ entry.byJoin = true

theorem joined_apply {c : Change α} {l : LeaderId}
    (hc : ∀ w entry, c = .insertWorker l w entry → entry.byJoin = false) {w : WorkerId} {entry : Registered α}
    (h : ((s.apply c).leader l).joined w entry) : (s.leader l).joined w entry := by
  by_cases hinsert : ∃ v new, c = .insertWorker l v new
  · obtain ⟨v, new, rfl⟩ := hinsert
    simp only [System.apply, System.leader_onLeader, if_true] at h
    obtain ⟨hlookup, hjoin⟩ := h
    by_cases hw : w = v
    · subst hw
      rw [Finmap.lookup_insert] at hlookup
      obtain rfl : new = entry := Option.some.inj hlookup
      rw [hc w new rfl] at hjoin
      cases hjoin
    · rw [Finmap.lookup_insert_of_ne _ hw] at hlookup
      exact ⟨hlookup, hjoin⟩
  · push Not at hinsert
    rw [Leader.joined, System.workers_apply s hinsert] at h
    exact h

theorem Moves.joins {ok : Bool} {t t' : Task α} {c : Change α} (h : Moves s ok t c t') (ht : t.Unserved)
    {l : LeaderId} (hmodel : (s.leader l).model.isSome) (w : WorkerId) (entry : Registered α)
    (hc : c = .insertWorker l w entry) : entry.byJoin = false := by
  subst hc
  cases h with
  | enters hadds hfree hnone =>
    rw [hnone] at hmodel
    cases hmodel
  | accepts l w entry waiting =>
    cases waiting with
    | join forOrphan =>
      have hrefused : true = false := ht
      cases hrefused
    | register => exact ht
    | callWorker => exact ht

/-- **One step.** A leader that has a model keeps one, and enters nobody for a join. -/
theorem Effect.joined {o : Op α} {s' : System α} (he : Effect s o s') (h : Unserved s) (hheld : Held s) {l : LeaderId}
    (hmodel : (s.leader l).model.isSome) :
    (s'.leader l).model.isSome ∧ ∀ w entry, (s'.leader l).joined w entry → (s.leader l).joined w entry := by
  cases he with
  | message i ok t c t' hi hmoves =>
    refine ⟨s.model_apply c hmodel, fun w entry hj => ?_⟩
    exact joined_apply (hmoves.joins (h t (List.mem_of_getElem? hi)) hmodel) hj
  | modelRefused i id k =>
    refine ⟨s.model_apply (.release k) hmodel, fun w entry hj => ?_⟩
    exact joined_apply (c := .release k) (fun _ _ hc => by cases hc) hj
  | forks i k w hi hk =>
    have hne : l ≠ k := by
      rintro rfl
      rw [(hheld.unspawned l hk).2.2] at hmodel
      cases hmodel
    simp only [System.leader_setTask, Function.update_of_ne hne]
    exact ⟨hmodel, fun _ _ => id⟩
  | disconnects w reached k =>
    rw [System.leader_onLeader]
    split_ifs with heq
    · subst heq
      refine ⟨hmodel, fun v entry hj => ⟨?_, hj.2⟩⟩
      by_cases hv : v = w
      · rw [hv] at hj
        exact absurd ((Finmap.lookup_erase w _).symm.trans hj.1) (by simp)
      · exact (Finmap.lookup_erase_ne hv).symm.trans hj.1
    · exact ⟨hmodel, fun _ _ => id⟩
  | cancelsLeader k =>
    rw [System.leader_onLeader]
    split_ifs with heq
    · subst heq
      exact ⟨hmodel, fun _ _ => id⟩
    · exact ⟨hmodel, fun _ _ => id⟩
  | _ => exact ⟨hmodel, fun _ _ => id⟩

/-- a join whose `SetModel` is under way stays under way unless its connection fails -/
theorem Effect.still {o : Op α} {s' : System α} (he : Effect s o s') (h : Unserved s) {i : ℕ} {l : LeaderId}
    {w : WorkerId} {model : Model} {link : Link} {entry : Registered α} {forOrphan : Bool}
    (hi : s.tasks[i]? = some (.sendModel l w model link entry (.join forOrphan))) (ho : o ≠ .advance i false) :
    s'.tasks[i]? = some (.sendModel l w model link entry (.join forOrphan)) := by
  have hset : ∀ {c : Change α} {j t u}, s.tasks[j]? = some u → j ≠ i →
      ((s.apply c).setTask j t).tasks[i]? = some (.sendModel l w model link entry (.join forOrphan)) := by
    intro c j t u hj hne
    rw [System.setTask, System.tasks_apply]
    exact (List.getElem?_set_ne hne).trans hi
  have hadd : ∀ t, (s.tasks ++ [t])[i]? = some (.sendModel l w model link entry (.join forOrphan)) := by
    intro t
    have hlt : i < s.tasks.length := (List.getElem?_eq_some_iff.mp hi).1
    rw [List.getElem?_append_left hlt, hi]
  have hne : ∀ {j u}, s.tasks[j]? = some u → u ≠ .sendModel l w model link entry (.join forOrphan) → j ≠ i := by
    rintro j u hj hu rfl
    exact hu (Option.some.inj (hj.symm.trans hi))
  cases he with
  | message j ok t c t' hj hmoves =>
    by_cases heq : j = i
    · subst heq
      obtain rfl : t = .sendModel l w model link entry (.join forOrphan) := Option.some.inj (hj.symm.trans hi)
      cases hmoves with
      | stays =>
        have hlt : j < s.tasks.length := (List.getElem?_eq_some_iff.mp hj).1
        simp [System.setTask, hlt]
      | ends _ hholding => cases hholding
      | enters hadds => cases hadds
      | holds model hadds => cases hadds
      | sends _ _ _ _ _ _ hanswers =>
        obtain rfl : link = .remote false := h _ (List.mem_of_getElem? hi)
        cases hanswers
      | sendFails _ _ _ _ _ _ hfails => exact absurd (by rw [hfails]) ho
    · exact hset hj heq
  | command o t => exact hadd t
  | viewSkips j id reached l w address rest hj => exact hset (c := .nothing) hj (hne hj (by simp))
  | viewFails j id reached l w address rest hj => exact hset (c := .nothing) hj (hne hj (by simp))
  | viewConnects j id l w address rest hj => exact hset hj (hne hj (by simp))
  | modelSent j id l model rest hj => exact hset hj (hne hj (by simp))
  | modelRefused j id l model rest hj => exact hset hj (hne hj (by simp))
  | reconnects j l w address rest hj => exact hset (c := .nothing) hj (hne hj (by simp))
  | forks j l w hj => exact hset (c := .nothing) hj (hne hj (by simp))
  | orphaned w ok known => exact hadd _
  | elects w other => exact hadd _
  | _ => exact hi

/-- leader `l` has a model, and has entered nobody for a join since `s₀` -/
structure KeepsOut (l : LeaderId) (s₀ s : System α) : Prop where
  held : Held s
  unserved : Unserved s
  out : (s.leader l).model.isSome ∧ ∀ w entry, (s.leader l).joined w entry → (s₀.leader l).joined w entry

theorem KeepsOut.run {l : LeaderId} {s₀ : System α} (h : KeepsOut l s₀ s) (ops : List (Op α)) :
    KeepsOut l s₀ (Core.run System.step s ops) := by
  refine Core.run_keeps (fun r o hr => ?_) h ops
  obtain ⟨hmodel, hjoined⟩ := (step_effect o).joined hr.unserved hr.held hr.out.1
  exact ⟨hr.held.effect (step_effect o), hr.unserved.effect (step_effect o), hmodel,
    fun w entry hw => hr.out.2 w entry (hjoined w entry hw)⟩

/-- handler `t` stays where it is, with the manager of leader `l` and what this has as in `s₀` -/
structure Stuck (i : ℕ) (l : LeaderId) (t : Task α) (s₀ s : System α) : Prop where
  held : Held s
  unserved : Unserved s
  still : s.tasks[i]? = some t
  workers : (s.leader l).workers = (s₀.leader l).workers
  model : (s.leader l).model = (s₀.leader l).model

theorem Stuck.run {i : ℕ} {l : LeaderId} {w : WorkerId} {model : Model} {link : Link} {entry : Registered α}
    {forOrphan : Bool} {s₀ : System α} (h : Stuck i l (.sendModel l w model link entry (.join forOrphan)) s₀ s)
    {ops : List (Op α)} (hops : ∀ o ∈ ops, o ≠ .advance i false) :
    Stuck i l (.sendModel l w model link entry (.join forOrphan)) s₀ (Core.run System.step s ops) := by
  refine Core.run_inv (fun r o hr (ho : o ≠ .advance i false) => ?_) h
    (Core.along_iff.mpr fun n o hn => hops o (List.mem_of_getElem? hn))
  have hstill := (step_effect o).still hr.unserved hr.still ho
  obtain ⟨hworkers, hmodel⟩ := hr.held.frozen hr.still rfl (step_effect o) hstill
  exact ⟨hr.held.effect (step_effect o), hr.unserved.effect (step_effect o), hstill, hworkers.trans hr.workers,
    hmodel.trans hr.model⟩

/-- **A join at a leader that has a model is stuck.** Whatever has happened and whatever happens next, a leader that has
a model keeps one and never enters a worker that joins. Once its manager has taken a join, it sends the model to a worker
that does not listen yet: until that connection fails, whatever else happens, the manager stays busy, nobody is entered
or removed there, and the model stays as it is. -/
theorem join_with_model_stuck (leaders : Finset LeaderId) (orphanFork : WorkerId → Bool) (ops more : List (Op α))
    (l : LeaderId) :
    let s := Core.run System.step (System.start leaders orphanFork) ops
    let s' := Core.run System.step s more
    ((s.leader l).model.isSome →
      (s'.leader l).model.isSome ∧ ∀ w entry, (s'.leader l).joined w entry → (s.leader l).joined w entry) ∧
    ∀ i w model link entry forOrphan, s.tasks[i]? = some (.sendModel l w model link entry (.join forOrphan)) →
      (∀ o ∈ more, o ≠ .advance i false) →
        s'.tasks[i]? = some (.sendModel l w model link entry (.join forOrphan)) ∧ (s'.leader l).busy = true ∧
          (s'.leader l).workers = (s.leader l).workers ∧ (s'.leader l).model = (s.leader l).model := by
  intro s s'
  have hheld : Held s := (start_held leaders orphanFork).run ops
  have hunserved : Unserved s :=
    Core.run_keeps (fun _ o hs => hs.effect (step_effect o)) (fun t ht => absurd ht List.not_mem_nil) ops
  clear_value s
  refine ⟨fun hmodel => ?_, fun i w model link entry forOrphan hi hmore => ?_⟩
  · exact (KeepsOut.run ⟨hheld, hunserved, hmodel, fun _ _ => id⟩ more).out
  · have hrun : Stuck i l (.sendModel l w model link entry (.join forOrphan)) s s' :=
      Stuck.run ⟨hheld, hunserved, hi, rfl, rfl⟩ hmore
    exact ⟨hrun.still, (hrun.held.lock.busy_iff l).mpr ⟨i, System.holdingAt_eq hrun.still⟩, hrun.workers, hrun.model⟩

end BigWorlds.Membership
