/-
What becomes of a cluster whose leader is lost (`worker::spawn` and `Election` of `worker/mod.rs`): an orphaned worker
forks a leader of its own, a worker with others asks them for an election, which nobody wins.

`stays_apart`: once every connection under way has come about and as long as nobody is told to connect to a leader, no
worker gets to a leader but one it had all along or one it has forked itself, and a leader that was forked enters nobody
but the worker that has forked it. Two workers never come to have a leader in common again.
-/
import BigWorlds.Membership.Joining
import BigWorlds.Membership.Reconnecting

namespace BigWorlds.Membership

variable {α : Type}

/-! ## The worker and the leader a handler is for -/

/-- the worker and the leader that a handler is about to connect -/
def Task.connects : Task α → Option (WorkerId × LeaderId)
  | .introduceLeader l w _ | .introducing l w _ _ | .register w l | .registered w l | .join w l _ | .getModel w l _
  | .joined w l _ _ | .callWorker l w _ | .introduceWith l w _ _ | .viewing l w _ _ | .introduced l w _
  | .sendModel l w _ _ _ _ | .modelSent l w _ _ _ => some (w, l)
  | _ => none

def Change.connects : Change α → Option (WorkerId × LeaderId)
  | .setLeader w ⟨.connected l _, _⟩ => some (w, l)
  | .insertWorker l w _ => some (w, l)
  | _ => none

/-- commands for a connection between a worker and a leader -/
def Op.connectsLeader : Op α → Bool
  | .connectLeaderToLocalWorker _ _ _ | .connectToLocalLeader _ _ | .connectToLeader _ _
  | .connectToRemoteWorker _ _ _ => true
  | _ => false

variable {s : System α}

theorem Commands.connects {o : Op α} {t : Task α} (h : Commands s o t) (ho : o.connectsLeader = false) :
    t.connects = none := by
  cases h with
  | connectToWorker => rfl
  | replaceModel => rfl
  | _ => cases ho

theorem Adds.connects {l : LeaderId} {w : WorkerId} {t : Task α} {link : Link} {entry : Registered α}
    {waiting : Waiting} {added : Task α} (h : Adds l w t link entry waiting added) :
    t.connects = some (w, l) ∧ (added.connects = none ∨ added.connects = some (w, l)) := by
  cases h with
  | introduced => exact ⟨rfl, Or.inl rfl⟩
  | _ => exact ⟨rfl, Or.inr rfl⟩

theorem afterAdding_connects (w : WorkerId) (l : LeaderId) (waiting : Waiting) (accepted : Bool) :
    (afterAdding (α := α) w l waiting accepted).connects = none ∨
      (afterAdding (α := α) w l waiting accepted).connects = some (w, l) := by
  cases waiting with
  | register => exact Or.inr rfl
  | callWorker => exact Or.inl rfl
  | join forOrphan =>
    cases accepted with
    | true => exact Or.inr rfl
    | false => cases forOrphan <;> exact Or.inl rfl

/-- a handler connects the worker and the leader it is for, and goes on for them -/
theorem Moves.connects {ok : Bool} {t t' : Task α} {c : Change α} (h : Moves s ok t c t') :
    (c.connects = none ∨ c.connects = t.connects) ∧ (t'.connects = none ∨ t'.connects = t.connects) := by
  cases h with
  | ends => exact ⟨Or.inl rfl, Or.inl rfl⟩
  | orphanFails => exact ⟨Or.inl rfl, Or.inl rfl⟩
  | orphanUnanswered => exact ⟨Or.inl rfl, Or.inl rfl⟩
  | keepsLeader l w duplex t' ht' =>
    refine ⟨Or.inl rfl, ?_⟩
    rcases ht' with rfl | rfl
    · exact Or.inr rfl
    · exact Or.inl rfl
  | takesLeader l w duplex t' ht' =>
    refine ⟨Or.inr rfl, ?_⟩
    rcases ht' with rfl | rfl
    · exact Or.inr rfl
    · exact Or.inl rfl
  | viewed l w address rest t' ht' =>
    refine ⟨Or.inr rfl, ?_⟩
    rcases ht' with rfl | rfl
    · exact Or.inr rfl
    · exact Or.inl rfl
  | enters hadds => exact ⟨Or.inr hadds.connects.1.symm, hadds.connects.1 ▸ hadds.connects.2⟩
  | holds model hadds => exact ⟨Or.inl rfl, Or.inr hadds.connects.1.symm⟩
  | registered => exact ⟨Or.inr rfl, Or.inl rfl⟩
  | joined w l model => exact ⟨Or.inr rfl, Or.inl (by cases model <;> rfl)⟩
  | accepts l w entry waiting => exact ⟨Or.inr rfl, afterAdding_connects w l waiting true⟩
  | refuses l w entry waiting => exact ⟨Or.inl rfl, afterAdding_connects w l waiting false⟩
  | electionTaken => exact ⟨Or.inl rfl, Or.inl rfl⟩
  | _ => exact ⟨Or.inl rfl, Or.inr rfl⟩

/-! ## What a step connects -/

namespace System

/-- the leader of a worker, and the connection to it -/
def leaderOf (s : System α) (w : WorkerId) : Option (LeaderId × Link) :=
  match (s.worker w).leader.situation with
  | .connected l link => some (l, link)
  | _ => none

theorem leaderOf_iff {w : WorkerId} {l : LeaderId} {link : Link} :
    s.leaderOf w = some (l, link) ↔ (s.worker w).leader.situation = .connected l link := by
  unfold leaderOf
  split
  · next hs => rw [hs, Option.some.injEq, Prod.mk.injEq, LeaderSituation.connected.injEq]
  · next hs =>
    constructor
    · intro h
      cases h
    · intro h
      exact absurd h (hs l link)

theorem leaderOf_onWorker {w v : WorkerId} {f : Worker α → Worker α} {l : LeaderId} {link : Link}
    (h : (s.onWorker w f).leaderOf v = some (l, link)) :
    s.leaderOf v = some (l, link) ∨ (v = w ∧ (f (s.worker w)).leader.situation = .connected l link) := by
  rw [leaderOf_iff, worker_onWorker] at h
  split_ifs at h with hv
  · exact Or.inr ⟨hv, h⟩
  · exact Or.inl (leaderOf_iff.2 h)

/-- a worker that is changed beside its leader -/
theorem leaderOf_frame {w v : WorkerId} {f : Worker α → Worker α} {l : LeaderId} {link : Link}
    (hf : (f (s.worker w)).leader = (s.worker w).leader) (h : (s.onWorker w f).leaderOf v = some (l, link)) :
    s.leaderOf v = some (l, link) := by
  rcases leaderOf_onWorker h with h | ⟨rfl, h⟩
  · exact h
  · exact leaderOf_iff.2 (hf ▸ h)

theorem leaderOf_setWatcher (w : WorkerId) (p : Watcher α) (v : WorkerId) :
    (s.setWatcher w p).leaderOf v = s.leaderOf v := by
  unfold leaderOf setWatcher
  rw [worker_onWorker]
  split_ifs with hv
  · rw [hv]
  · rfl

theorem leaderOf_apply {c : Change α} {v : WorkerId} {l : LeaderId} {link : Link}
    (h : (s.apply c).leaderOf v = some (l, link)) : s.leaderOf v = some (l, link) ∨ c.connects = some (v, l) := by
  cases c <;> simp only [apply] at h
  case setLeader w known =>
    refine (leaderOf_onWorker h).imp id ?_
    obtain ⟨situation, listeners⟩ := known
    rintro ⟨rfl, hs⟩
    obtain rfl : situation = .connected l link := hs
    rfl
  case addOtherWorker w other link => exact Or.inl (leaderOf_frame (by rfl) h)
  case setModel w model => exact Or.inl (leaderOf_frame (by rfl) h)
  case cancel w => exact Or.inl (leaderOf_frame (by rfl) h)
  all_goals exact Or.inl h

/-- an entry of a leader is one it had, or is entered by the change -/
theorem lookup_apply {c : Change α} {v : WorkerId} {l : LeaderId} {entry : Registered α}
    (h : ((s.apply c).leader l).workers.lookup v = some entry) :
    (s.leader l).workers.lookup v = some entry ∨ c.connects = some (v, l) := by
  by_cases hinsert : ∃ w new, c = .insertWorker l w new
  · obtain ⟨w, new, rfl⟩ := hinsert
    simp only [apply, leader_onLeader, if_true] at h
    by_cases hv : v = w
    · exact Or.inr (by rw [hv]; rfl)
    · rw [Finmap.lookup_insert_of_ne _ hv] at h
      exact Or.inl h
  · push Not at hinsert
    rw [workers_apply s hinsert] at h
    exact Or.inl h

/-- a handler is under way that connects the two -/
def Connecting (s : System α) (w : WorkerId) (l : LeaderId) : Prop := ∃ t ∈ s.tasks, t.connects = some (w, l)

/-- the next message of a handler connects the two -/
def Connects (s : System α) (w : WorkerId) (l : LeaderId) : Prop :=
  ∃ t ∈ s.tasks, ∃ ok c t', Moves s ok t c t' ∧ c.connects = some (w, l)

theorem Connects.connecting {w : WorkerId} {l : LeaderId} (h : s.Connects w l) : s.Connecting w l := by
  obtain ⟨t, ht, ok, c, t', hmoves, hc⟩ := h
  refine ⟨t, ht, ?_⟩
  rcases hmoves.connects.1 with hnone | hsame
  · rw [hnone] at hc
    cases hc
  · rw [← hsame, hc]

end System

namespace Effect

variable {o : Op α} {s' : System α}

/-- leaders are there for good, and so is who has forked them -/
theorem leaders (he : Effect s o s') {l : LeaderId} (hl : l ∈ s.leaders) :
    l ∈ s'.leaders ∧ (s'.leader l).forkedBy = (s.leader l).forkedBy := by
  cases he with
  | message i ok t c => exact ⟨by simpa using hl, s.forkedBy_apply c l⟩
  | modelRefused i id k => exact ⟨by simpa using hl, s.forkedBy_apply (.release k) l⟩
  | forks i k w hi hk =>
    have hne : l ≠ k := fun heq => hk (heq ▸ hl)
    exact ⟨Finset.mem_insert_of_mem hl, by simp only [System.leader_setTask, Function.update_of_ne hne]⟩
  | disconnects w reached k =>
    refine ⟨hl, ?_⟩
    rw [System.leader_onLeader]
    split_ifs with heq
    · rw [heq]
    · rfl
  | cancelsLeader k =>
    refine ⟨hl, ?_⟩
    rw [System.leader_onLeader]
    split_ifs with heq
    · rw [heq]
    · rfl
  | viewConnects => exact ⟨by simpa using hl, rfl⟩
  | modelSent => exact ⟨by simpa using hl, rfl⟩
  | _ => exact ⟨hl, rfl⟩

/-- a worker is connected to a leader by the message of a handler -/
theorem leaderOf (he : Effect s o s') {w : WorkerId} {l : LeaderId} {link : Link}
    (h : s'.leaderOf w = some (l, link)) : s.leaderOf w = some (l, link) ∨ s.Connects w l := by
  cases he with
  | message i ok t c t' hi hmoves =>
    exact (System.leaderOf_apply h).imp_right fun hc => ⟨t, List.mem_of_getElem? hi, ok, c, t', hmoves, hc⟩
  | viewConnects i id _ v =>
    refine (System.leaderOf_apply (c := .addOtherWorker v id (.remote true)) h).imp_right fun hc => ?_
    cases hc
  | modelSent i id _ model =>
    refine (System.leaderOf_apply (c := .setModel id model) h).imp_right fun hc => ?_
    cases hc
  | modelRefused i id k =>
    exact Or.inl h
  | watches o v p =>
    rw [System.leaderOf_setWatcher] at h
    exact Or.inl h
  | orphaned v ok known hp =>
    have hset : (s.apply (.setLeader v { known with situation := .orphanedWaiting })).leaderOf w = some (l, link) := by
      rwa [System.leaderOf, System.worker_addTask, ← System.leaderOf, System.leaderOf_setWatcher] at h
    refine (System.leaderOf_apply hset).imp_right fun hc => ?_
    cases hc
  | outvoted v ok known hp =>
    have hset : (s.apply (.setLeader v { known with situation := .election })).leaderOf w = some (l, link) := by
      rwa [System.leaderOf_setWatcher] at h
    refine (System.leaderOf_apply hset).imp_right fun hc => ?_
    cases hc
  | elects v other delivered rest =>
    rw [System.leaderOf, System.worker_addTask, ← System.leaderOf, System.leaderOf_setWatcher] at h
    exact Or.inl h
  | cancelsWorker v =>
    refine (System.leaderOf_apply (c := .cancel v) h).imp_right fun hc => ?_
    cases hc
  | _ => exact Or.inl h

/-- a leader enters a worker by a handler under way; a new leader knows nobody -/
theorem lookup (he : Effect s o s') {v : WorkerId} {l : LeaderId} {entry : Registered α} (hl : l ∈ s'.leaders)
    (h : (s'.leader l).workers.lookup v = some entry) :
    (l ∈ s.leaders ∧ (s.leader l).workers.lookup v = some entry) ∨ s.Connecting v l := by
  cases he with
  | message i ok t c t' hi hmoves =>
    refine (System.lookup_apply h).imp (fun hc => ⟨by simpa using hl, hc⟩) fun hc => ⟨t, List.mem_of_getElem? hi, ?_⟩
    rcases hmoves.connects.1 with hnone | hsame
    · rw [hnone] at hc
      cases hc
    · rw [← hsame, hc]
  | modelRefused i id k =>
    refine (System.lookup_apply (c := .release k) h).imp (fun hc => ⟨by simpa using hl, hc⟩) fun hc => ?_
    cases hc
  | forks i k w hi hk =>
    simp only [System.leader_setTask, Function.update_apply] at h
    split_ifs at h with heq
    · cases (Finmap.lookup_empty v).symm.trans h
    · exact Or.inl ⟨Finset.mem_of_mem_insert_of_ne hl heq, h⟩
  | disconnects w reached k =>
    rw [System.leader_onLeader] at h
    split_ifs at h with heq
    · subst heq
      by_cases hv : v = w
      · subst hv
        cases (Finmap.lookup_erase v _).symm.trans h
      · exact Or.inl ⟨hl, (Finmap.lookup_erase_ne hv).symm.trans h⟩
    · exact Or.inl ⟨hl, h⟩
  | cancelsLeader k =>
    rw [System.leader_onLeader] at h
    split_ifs at h with heq
    · exact Or.inl ⟨hl, heq ▸ h⟩
    · exact Or.inl ⟨hl, h⟩
  | viewConnects => exact Or.inl ⟨by simpa using hl, h⟩
  | modelSent => exact Or.inl ⟨by simpa using hl, h⟩
  | _ => exact Or.inl ⟨hl, h⟩

/-- without a command, a handler that connects two was under way already, or a worker has forked a leader -/
theorem connecting (he : Effect s o s') (hblank : Blank s) (ho : o.connectsLeader = false) {w : WorkerId}
    {l : LeaderId} (h : s'.Connecting w l) :
    s.Connecting w l ∨ (l ∉ s.leaders ∧ l ∈ s'.leaders ∧ (s'.leader l).forkedBy = some w) := by
  obtain ⟨t, ht, hconnects⟩ := h
  have hold : t ∈ s.tasks → s.Connecting w l := fun hmem => ⟨t, hmem, hconnects⟩
  have hnone : t.connects ≠ none := by simp [hconnects]
  cases he with
  | command o u hu =>
    rcases s.mem_addTask ht with hmem | rfl
    · exact Or.inl (hold hmem)
    · exact absurd (hu.connects ho) hnone
  | message i ok u c u' hi hmoves =>
    rcases System.mem_setTask _ ht with hmem | rfl
    · exact Or.inl (hold (by simpa using hmem))
    · rcases hmoves.connects.2 with hnone' | hsame
      · exact absurd hnone' hnone
      · exact Or.inl ⟨u, List.mem_of_getElem? hi, hsame ▸ hconnects⟩
  | viewSkips i id reached k v address rest hi =>
    rcases s.mem_setTask ht with hmem | rfl
    · exact Or.inl (hold hmem)
    · exact Or.inl ⟨_, List.mem_of_getElem? hi, hconnects⟩
  | viewFails i =>
    rcases s.mem_setTask ht with hmem | rfl
    · exact Or.inl (hold hmem)
    · exact absurd rfl hnone
  | viewConnects i id k v address rest hi =>
    rcases System.mem_setTask _ ht with hmem | rfl
    · exact Or.inl (hold hmem)
    · exact Or.inl ⟨_, List.mem_of_getElem? hi, hconnects⟩
  | modelSent i id =>
    rcases System.mem_setTask _ ht with hmem | rfl
    · exact Or.inl (hold hmem)
    · exact absurd rfl hnone
  | modelRefused i id =>
    rcases System.mem_setTask _ ht with hmem | rfl
    · exact Or.inl (hold hmem)
    · exact absurd rfl hnone
  | reconnects i k v address rest hi =>
    -- no orphan has an address to call
    cases hblank.tasks _ (List.mem_of_getElem? hi)
  | forks i k v hi hk =>
    rcases System.mem_setTask _ ht with hmem | rfl
    · exact Or.inl (hold hmem)
    · obtain ⟨rfl, rfl⟩ : v = w ∧ k = l := by simpa [Task.connects] using hconnects
      exact Or.inr ⟨hk, Finset.mem_insert_self .., by simp⟩
  | orphaned v ok known =>
    rcases System.mem_addTask _ ht with hmem | rfl
    · exact Or.inl (hold hmem)
    · exact absurd rfl hnone
  | elects v other =>
    rcases System.mem_addTask _ ht with hmem | rfl
    · exact Or.inl (hold hmem)
    · exact absurd rfl hnone
  | _ => exact Or.inl (hold ht)

end Effect

/-! ## Leaders that are known -/

/-- the leader of a handler that has dealt with it -/
def Task.reached : Task α → Option LeaderId
  | .register _ _ | .join _ _ _ => none
  | t => t.connects.map Prod.snd

/-- a leader that somebody knows is there -/
structure Spawned (s : System α) : Prop where
  leader : ∀ w l link, s.leaderOf w = some (l, link) → l ∈ s.leaders
  tasks : ∀ t ∈ s.tasks, ∀ l, t.reached = some l → l ∈ s.leaders

theorem Task.connects_of_reached {t : Task α} {l : LeaderId} (h : t.reached = some l) :
    ∃ w, t.connects = some (w, l) := by
  unfold reached at h
  split at h
  · cases h
  · cases h
  · obtain ⟨⟨w, k⟩, hconnects, rfl⟩ := Option.map_eq_some_iff.mp h
    exact ⟨w, hconnects⟩

/-- a handler deals with the leader it has dealt with, or with one that is free -/
theorem Moves.reached {ok : Bool} {t t' : Task α} {c : Change α} (h : Moves s ok t c t') {l : LeaderId}
    (hl : t'.reached = some l ∨ ∃ w, c.connects = some (w, l)) :
    t.reached = some l ∨ (s.leader l).free = true := by
  have hconnects : ∃ w, t.connects = some (w, l) := by
    have hsame : ∃ w, t'.connects = some (w, l) ∨ c.connects = some (w, l) := by
      rcases hl with hl | ⟨w, hw⟩
      · exact (Task.connects_of_reached hl).imp fun _ => Or.inl
      · exact ⟨w, Or.inr hw⟩
    obtain ⟨w, hw⟩ := hsame
    refine ⟨w, ?_⟩
    obtain ⟨hc, ht⟩ := h.connects
    rcases hw with hw | hw
    · rcases ht with ht | ht
      · rw [ht] at hw
        cases hw
      · rw [← ht, hw]
    · rcases hc with hc | hc
      · rw [hc] at hw
        cases hw
      · rw [← hc, hw]
  obtain ⟨w, hw⟩ := hconnects
  by_cases hreached : t.reached = none
  · -- it waits for the leader to be free
    cases h with
    | enters hadds hfree =>
      obtain ⟨rfl, rfl⟩ : _ = w ∧ _ = l := by simpa [hadds.connects.1] using hw
      exact Or.inr hfree
    | holds model hadds hfree =>
      obtain ⟨rfl, rfl⟩ : _ = w ∧ _ = l := by simpa [hadds.connects.1] using hw
      exact Or.inr hfree
    | stays =>
      refine Or.inl (hl.resolve_right ?_)
      rintro ⟨v, hv⟩
      cases hv
    | ends => simp [Task.reached, Task.connects, Change.connects] at hl
    | orphanFails => simp [Task.reached, Task.connects, Change.connects] at hl
    | _ => simp_all [Task.reached, Task.connects]
  · refine Or.inl ?_
    unfold Task.reached at hreached ⊢
    split at hreached
    · exact absurd rfl hreached
    · exact absurd rfl hreached
    · rw [hw]
      rfl

theorem Commands.reached {o : Op α} {t : Task α} (h : Commands s o t) {l : LeaderId} (hl : t.reached = some l) :
    (s.leader l).running = true := by
  cases h with
  | connectLeaderToLocalWorker k w duplex hrunning => exact Option.some.inj hl ▸ hrunning
  | connectToRemoteWorker k w address hrunning => exact Option.some.inj hl ▸ hrunning
  | _ => cases hl

namespace Spawned

theorem connects (h : Spawned s) (hheld : Held s) {w : WorkerId} {l : LeaderId} (hc : s.Connects w l) :
    l ∈ s.leaders := by
  obtain ⟨t, ht, ok, c, t', hmoves, hconnects⟩ := hc
  rcases hmoves.reached (Or.inr ⟨w, hconnects⟩) with hreached | hfree
  · exact h.tasks t ht l hreached
  · exact hheld.spawned hfree

theorem setTask (h : Spawned s) {r : System α} (htasks : r.tasks = s.tasks) {i : ℕ} {t : Task α} {l : LeaderId}
    (ht : t.reached = some l → l ∈ s.leaders) {u : Task α} (hu : u ∈ (r.setTask i t).tasks)
    (hl : u.reached = some l) : l ∈ s.leaders := by
  rcases r.mem_setTask hu with hmem | rfl
  · exact h.tasks u (htasks ▸ hmem) l hl
  · exact ht hl

theorem addTask (h : Spawned s) {r : System α} (htasks : r.tasks = s.tasks) {t : Task α} {l : LeaderId}
    (ht : t.reached = some l → l ∈ s.leaders) {u : Task α} (hu : u ∈ (r.addTask t).tasks)
    (hl : u.reached = some l) : l ∈ s.leaders := by
  rcases r.mem_addTask hu with hmem | rfl
  · exact h.tasks u (htasks ▸ hmem) l hl
  · exact ht hl

/-- what a handler has dealt with after a step -/
theorem reached (h : Spawned s) (hheld : Held s) {o : Op α} {s' : System α} (he : Effect s o s') {u : Task α}
    (hu : u ∈ s'.tasks) {l : LeaderId} (hl : u.reached = some l) : l ∈ s.leaders := by
  cases he with
  | command o t ht =>
    refine h.addTask rfl (fun hreached => ?_) hu hl
    by_contra hnot
    have hrunning : (s.leader l).running = true := ht.reached hreached
    rw [(hheld.unspawned l hnot).1] at hrunning
    cases hrunning
  | message i ok t c t' hi hmoves =>
    refine h.setTask (s.tasks_apply c) (fun hreached => ?_) hu hl
    rcases hmoves.reached (Or.inl hreached) with hreached | hfree
    · exact h.tasks t (List.mem_of_getElem? hi) l hreached
    · exact hheld.spawned hfree
  | viewSkips i id reached k w address rest hi =>
    refine h.setTask rfl (fun hreached => ?_) hu hl
    exact h.tasks (.viewing k w address rest) (List.mem_of_getElem? hi) l hreached
  | viewConnects i id k w address rest hi =>
    refine h.setTask (s.tasks_apply _) (fun hreached => ?_) hu hl
    exact h.tasks (.viewing k w address rest) (List.mem_of_getElem? hi) l hreached
  | viewFails i => exact h.setTask rfl (fun hreached => by cases hreached) hu hl
  | modelSent i id => exact h.setTask (s.tasks_apply _) (fun hreached => by cases hreached) hu hl
  | modelRefused i id => exact h.setTask (s.tasks_apply _) (fun hreached => by cases hreached) hu hl
  | reconnects i => exact h.setTask rfl (fun hreached => by cases hreached) hu hl
  | forks i k w =>
    exact h.setTask (r := { s with leaders := _, leader := _ }) rfl (fun hreached => by cases hreached) hu hl
  | orphaned w ok known => exact h.addTask (by rfl) (fun hreached => by cases hreached) hu hl
  | elects w other => exact h.addTask (by rfl) (fun hreached => by cases hreached) hu hl
  | _ => exact h.tasks u hu l hl

theorem effect (h : Spawned s) (hheld : Held s) {o : Op α} {s' : System α} (he : Effect s o s') : Spawned s' where
  leader w l link hw := by
    refine (he.leaders ?_).1
    rcases he.leaderOf hw with hw | hc
    · exact h.leader w l link hw
    · exact h.connects hheld hc
  tasks u hu l hl := (he.leaders (h.reached hheld he hu hl)).1

end Spawned

theorem start_spawned (leaders : Finset LeaderId) (orphanFork : WorkerId → Bool) (ops : List (Op α)) :
    Spawned (Core.run System.step (System.start leaders orphanFork) ops) := by
  have hstep : ∀ (r : System α) o, (Held r ∧ Spawned r) → Held (r.step o) ∧ Spawned (r.step o) := fun r o hr =>
    ⟨hr.1.effect (step_effect o), hr.2.effect hr.1 (step_effect o)⟩
  have hstart : Spawned (System.start (α := α) leaders orphanFork) := by
    refine ⟨fun w l link hw => ?_, fun t ht => absurd ht List.not_mem_nil⟩
    cases hw
  exact (Core.run_keeps hstep ⟨start_held leaders orphanFork, hstart⟩ ops).2

/-! ## Runs without commands -/

/-- worker `w` has forked leader `l` since `s₀` -/
def Forked (s₀ s : System α) (w : WorkerId) (l : LeaderId) : Prop :=
  l ∉ s₀.leaders ∧ l ∈ s.leaders ∧ (s.leader l).forkedBy = some w

/-- since `s₀` only workers and the leaders they have forked are being connected -/
structure Apart (s₀ s : System α) : Prop where
  blank : Blank s
  leaders : s₀.leaders ⊆ s.leaders
  connecting : ∀ w l, s.Connecting w l → Forked s₀ s w l
  entered : ∀ l ∈ s.leaders, l ∉ s₀.leaders → ∀ v entry, (s.leader l).workers.lookup v = some entry → Forked s₀ s v l

theorem Forked.effect {s₀ s' : System α} {o : Op α} {w : WorkerId} {l : LeaderId} (h : Forked s₀ s w l)
    (he : Effect s o s') : Forked s₀ s' w l :=
  ⟨h.1, (he.leaders h.2.1).1, (he.leaders h.2.1).2.trans h.2.2⟩

/-- a step without a command -/
theorem Apart.effect {s₀ s' : System α} {o : Op α} (h : Apart s₀ s) (he : Effect s o s')
    (ho : o.connectsLeader = false) : Apart s₀ s' where
  blank := h.blank.effect he
  leaders l hl := (he.leaders (h.leaders hl)).1
  connecting w l hc := by
    rcases he.connecting h.blank ho hc with hc | ⟨hl, hl', hw⟩
    · exact (h.connecting w l hc).effect he
    · exact ⟨fun hl₀ => hl (h.leaders hl₀), hl', hw⟩
  entered l hl' hl₀ v entry hv := by
    rcases he.lookup hl' hv with ⟨hl, hv⟩ | hc
    · exact (h.entered l hl hl₀ v entry hv).effect he
    · exact (h.connecting v l hc).effect he

/-- once no handler is connecting a worker and a leader -/
theorem Apart.start {s₀ : System α} (hblank : Blank s₀) (hquiet : ∀ t ∈ s₀.tasks, t.connects = none) :
    Apart s₀ s₀ where
  blank := hblank
  leaders := Finset.Subset.refl _
  connecting w l := by
    rintro ⟨t, ht, hconnects⟩
    rw [hquiet t ht] at hconnects
    cases hconnects
  entered l hl hl₀ := absurd hl hl₀

/-- every run without such commands -/
theorem Apart.run {s₀ : System α} (h : Apart s₀ s) {ops : List (Op α)} (hops : ∀ o ∈ ops, o.connectsLeader = false) :
    Apart s₀ (Core.run System.step s ops) :=
  Core.run_inv (fun _ o hr ho => hr.effect (step_effect o) ho) h
    (Core.along_iff.mpr fun _ o hn => hops o (List.mem_of_getElem? hn))

/-- the workers have the leaders they have in `s`, or ones that they have forked since `s₀` -/
def Follows (s₀ s s' : System α) : Prop :=
  ∀ w l link, s'.leaderOf w = some (l, link) → s.leaderOf w = some (l, link) ∨ Forked s₀ s' w l

/-- in a run without such commands a worker keeps its leader, or gets to one that it has forked -/
theorem Apart.leaderOf {s₀ : System α} (h : Apart s₀ s) {ops : List (Op α)}
    (hops : ∀ o ∈ ops, o.connectsLeader = false) (w : WorkerId) (l : LeaderId) (link : Link)
    (hw : (Core.run System.step s ops).leaderOf w = some (l, link)) :
    s.leaderOf w = some (l, link) ∨ Forked s₀ (Core.run System.step s ops) w l := by
  have hstep : ∀ (r : System α) o, (Apart s₀ r ∧ Follows s₀ s r) → o.connectsLeader = false →
      Apart s₀ (r.step o) ∧ Follows s₀ s (r.step o) := by
    rintro r o ⟨hr, hfollows⟩ ho
    refine ⟨hr.effect (step_effect o) ho, fun w l link hw => ?_⟩
    rcases (step_effect o).leaderOf hw with hw | hc
    · exact (hfollows w l link hw).imp_right fun hf => hf.effect (step_effect o)
    · exact Or.inr ((hr.connecting w l hc.connecting).effect (step_effect o))
  have hrun := Core.run_inv hstep ⟨h, fun _ _ _ => Or.inl⟩
    (Core.along_iff.mpr fun _ o hn => hops o (List.mem_of_getElem? hn))
  exact hrun.2 w l link hw

/-- **A cluster that has lost its leader stays apart.** From a state in which no connection between a worker and a leader
is under way, and as long as nobody is told to make one: whichever parties are lost, whoever is orphaned and whatever is
elected, a worker keeps the leader it has or gets to one that it has forked itself, and once it has lost a leader it
never comes back to it; a leader that was forked enters nobody but the worker that has forked it; and two workers have a
leader in common only where they had it in common all along. -/
theorem stays_apart (leaders : Finset LeaderId) (orphanFork : WorkerId → Bool) (ops more more' : List (Op α))
    (hquiet : ∀ t ∈ (Core.run System.step (System.start leaders orphanFork) ops).tasks, t.connects = none)
    (hops : ∀ o ∈ more ++ more', o.connectsLeader = false) :
    let s := Core.run System.step (System.start leaders orphanFork) ops
    let s' := Core.run System.step s more
    let s'' := Core.run System.step s' more'
    (∀ w l link, s''.leaderOf w = some (l, link) → s'.leaderOf w = some (l, link) ∨ Forked s s'' w l) ∧
    (∀ l ∈ s''.leaders, l ∉ s.leaders → ∀ v entry, (s''.leader l).workers.lookup v = some entry → Forked s s'' v l) ∧
    ∀ w v l link link', w ≠ v → s''.leaderOf w = some (l, link) → s''.leaderOf v = some (l, link') →
      s'.leaderOf w = some (l, link) ∧ s'.leaderOf v = some (l, link') := by
  intro s s' s''
  have hmore : ∀ o ∈ more, o.connectsLeader = false := fun o ho => hops o (List.mem_append_left _ ho)
  have hmore' : ∀ o ∈ more', o.connectsLeader = false := fun o ho => hops o (List.mem_append_right _ ho)
  have hapart : Apart s s' := (Apart.start ((start_blank leaders orphanFork).run ops) hquiet).run hmore
  have hapart' : Apart s s'' := hapart.run hmore'
  have hleader := hapart.leaderOf hmore'
  have hstart := (Apart.start ((start_blank leaders orphanFork).run ops) hquiet).leaderOf hops
  rw [Core.run_append] at hstart
  have hspawned : Spawned s := start_spawned leaders orphanFork ops
  refine ⟨hleader, hapart'.entered, fun w v l link link' hne hw hv => ?_⟩
  -- a leader that was forked has one worker
  have hold : ∀ v link, s''.leaderOf v = some (l, link) → ¬ Forked s s'' v l → l ∈ s.leaders := fun v link hv hnot =>
    hspawned.leader v l link ((hstart v l link hv).resolve_right hnot)
  have hboth : ¬ (Forked s s'' w l ∧ Forked s s'' v l) := fun h => hne (Option.some.inj (h.1.2.2.symm.trans h.2.2.2))
  have hneither : ¬ Forked s s'' w l ∧ ¬ Forked s s'' v l := by
    constructor
    · intro hf
      exact hf.1 (hold v link' hv fun hf' => hboth ⟨hf, hf'⟩)
    · intro hf
      exact hf.1 (hold w link hw fun hf' => hboth ⟨hf', hf⟩)
  exact ⟨(hleader w l link hw).resolve_right hneither.1, (hleader v l link' hv).resolve_right hneither.2⟩

/-- two workers of one leader; it is lost, and one of them forks -/
theorem stays_apart_forking :
    let s : System ℕ := Core.run System.step (System.start {0} fun _ => true)
      [.connectToLocalLeader 1 0, .advance 0 true, .advance 0 true,
        .connectToLocalLeader 2 0, .advance 1 true, .advance 1 true]
    let s' := Core.run System.step s [.cancelLeader 0, .watch 1 true, .watch 1 false, .watch 1 true, .watch 1 true]
    let s'' := Core.run System.step s' [.advance 2 true, .advance 2 true, .fork 2 5, .advance 2 true, .advance 2 true,
      .advance 2 true]
    s.leaderOf 1 = some (0, .local) ∧ s.leaderOf 2 = some (0, .local) ∧ s'.leaderOf 1 = none ∧
      s''.leaderOf 1 = some (5, .remote true) ∧ Forked s s'' 1 5 := by
  intro s s' s''
  have hlost : s'.leaderOf 1 = none := by decide +kernel
  have hnew : s''.leaderOf 1 = some (5, .remote true) := by decide +kernel
  have hforked := (stays_apart (α := ℕ) {0} (fun _ => true)
    [.connectToLocalLeader 1 0, .advance 0 true, .advance 0 true,
      .connectToLocalLeader 2 0, .advance 1 true, .advance 1 true]
    [.cancelLeader 0, .watch 1 true, .watch 1 false, .watch 1 true, .watch 1 true]
    [.advance 2 true, .advance 2 true, .fork 2 5, .advance 2 true, .advance 2 true, .advance 2 true]
    (by
      have htasks : s.tasks = [.done, .done] := by rfl
      intro t ht
      rw [htasks] at ht
      simp only [List.mem_cons, List.not_mem_nil, or_false, or_self] at ht
      rw [ht]
      rfl)
    (by simp [Op.connectsLeader])).1 1 5 (.remote true) hnew
  refine ⟨by decide +kernel, by decide +kernel, hlost, hnew, hforked.resolve_left fun h => ?_⟩
  rw [hlost] at h
  cases h

end BigWorlds.Membership
