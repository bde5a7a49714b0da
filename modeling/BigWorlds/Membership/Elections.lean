/-
What becomes of an election (`Election` of `worker/mod.rs`). A worker that hears of one steps up to it, also from the
wait of an orphan; what an orphan leaves behind does nothing for a worker that is in an election.

`election_never_ends`: a worker that is in an election, with nothing under way that would give it a leader, is in it for
good unless it is told to connect to a leader.
-/
import BigWorlds.Membership.Separation

namespace BigWorlds.Membership

variable {α : Type}

/-- the worker that the handler may give another leader -/
def Task.leads : Task α → Option WorkerId
  | .orphan w _ | .recheck w | .fork w => some w
  | t => t.connects.map Prod.fst

/-- the watcher is not about to set the leader -/
def Watcher.settled : Watcher α → Bool
  | .asleep | .listing | .electing _ => true
  | _ => false

/-- a worker in an election that nobody is about to take out of it -/
structure Elects (s : System α) (w : WorkerId) : Prop where
  situation : (s.worker w).leader.situation = .election
  watcher : (s.worker w).watcher.settled = true
  tasks : ∀ t ∈ s.tasks, t.leads ≠ some w

variable {s : System α}

theorem Commands.leads {o : Op α} {t : Task α} (h : Commands s o t) (ho : o.connectsLeader = false) :
    t.leads = none := by
  cases h with
  | connectToWorker => rfl
  | replaceModel => rfl
  | _ => cases ho

/-- a handler goes on for the worker it is for -/
theorem Moves.leads {ok : Bool} {t t' : Task α} {c : Change α} (h : Moves s ok t c t') :
    t'.leads = none ∨ t'.leads = t.leads := by
  cases h with
  | joined w l model => exact Or.inl (by cases model <;> rfl)
  | keepsLeader l w duplex t' ht' =>
    rcases ht' with rfl | rfl
    · exact Or.inr rfl
    · exact Or.inl rfl
  | takesLeader l w duplex t' ht' =>
    rcases ht' with rfl | rfl
    · exact Or.inr rfl
    · exact Or.inl rfl
  | viewed l w address rest t' ht' =>
    rcases ht' with rfl | rfl
    · exact Or.inr rfl
    · exact Or.inl rfl
  | enters hadds => cases hadds <;> first | exact Or.inl rfl | exact Or.inr rfl
  | holds model hadds => cases hadds <;> exact Or.inr rfl
  | accepts l w entry waiting =>
    cases waiting with
    | callWorker => exact Or.inl rfl
    | _ => exact Or.inr rfl
  | refuses l w entry waiting =>
    cases waiting with
    | callWorker => exact Or.inl rfl
    | register => exact Or.inr rfl
    | join forOrphan =>
      cases forOrphan
      · exact Or.inl rfl
      · exact Or.inr rfl
  | _ => first | exact Or.inl rfl | exact Or.inr rfl

/-- a handler sets the leader of the worker it is for, or it hears of an election -/
theorem Moves.setLeader {ok : Bool} {t t' : Task α} {w : WorkerId} {known : KnownLeader α}
    (h : Moves s ok t (.setLeader w known) t') : known.situation = .election ∨ t.leads = some w := by
  cases h with
  | electionTaken => exact Or.inl rfl
  | _ => exact Or.inr rfl

theorem Watches.settled {w : WorkerId} {p p' : Watcher α} (h : Watches s w p p') (hp : p.settled = true)
    (hs : (s.worker w).leader.situation.isConnected = false) : p'.settled = true := by
  cases h with
  | lists => rfl
  | sends => rfl
  | ends => rfl
  | wakes hconnected =>
    rw [hs] at hconnected
    cases hconnected
  | _ => cases hp

namespace Elects

variable {w : WorkerId}

theorem setTask (h : Elects s w) (i : ℕ) {t : Task α} (ht : t.leads ≠ some w) : Elects (s.setTask i t) w where
  situation := h.situation
  watcher := h.watcher
  tasks u hu := (s.mem_setTask hu).elim (h.tasks u) fun heq => heq ▸ ht

theorem addTask (h : Elects s w) {t : Task α} (ht : t.leads ≠ some w) : Elects (s.addTask t) w where
  situation := h.situation
  watcher := h.watcher
  tasks u hu := (s.mem_addTask hu).elim (h.tasks u) fun heq => heq ▸ ht

theorem apply (h : Elects s w) {c : Change α} (hc : ∀ known, c = .setLeader w known → known.situation = .election) :
    Elects (s.apply c) w where
  situation := by
    by_cases hset : ∃ known, c = .setLeader w known
    · obtain ⟨known, rfl⟩ := hset
      simp only [System.apply, System.worker_onWorker, if_true]
      exact hc known rfl
    · push Not at hset
      rw [s.leader_worker_apply hset, h.situation]
  watcher := by
    rw [System.watcher_apply]
    exact h.watcher
  tasks := by
    rw [System.tasks_apply]
    exact h.tasks

theorem setWatcher (h : Elects s w) {v : WorkerId} {p : Watcher α} (hp : v = w → p.settled = true) :
    Elects (s.setWatcher v p) w where
  situation := by
    rw [System.setWatcher, System.worker_onWorker]
    split_ifs with heq
    · rw [← heq]
      exact h.situation
    · exact h.situation
  watcher := by
    rw [System.setWatcher, System.worker_onWorker]
    split_ifs with heq
    · exact hp heq.symm
    · exact h.watcher
  tasks := h.tasks

theorem onLeader (h : Elects s w) (l : LeaderId) (f : Leader α → Leader α) : Elects (s.onLeader l f) w :=
  ⟨h.situation, h.watcher, h.tasks⟩

/-- a watcher that is about to set the leader is not that of this worker -/
theorem ne (h : Elects s w) {v : WorkerId} {p : Watcher α} (hp : (s.worker v).watcher = p) (hnot : p.settled = false) :
    v ≠ w := by
  rintro rfl
  have hsettled := h.watcher
  rw [hp, hnot] at hsettled
  cases hsettled

theorem leads_ne (h : Elects s w) {i : ℕ} {t : Task α} (hi : s.tasks[i]? = some t) : t.leads ≠ some w :=
  h.tasks t (List.mem_of_getElem? hi)

/-- a step without a command -/
theorem effect (h : Elects s w) {o : Op α} {s' : System α} (he : Effect s o s') (ho : o.connectsLeader = false) :
    Elects s' w := by
  cases he with
  | idle => exact h
  | command o t ht =>
    refine h.addTask ?_
    rw [ht.leads ho]
    exact nofun
  | message i ok t c t' hi hmoves =>
    have hset : Elects (s.apply c) w := h.apply fun known hc => by
      subst hc
      exact hmoves.setLeader.resolve_right (h.leads_ne hi)
    refine hset.setTask i ?_
    rcases hmoves.leads with hnone | hsame
    · rw [hnone]
      exact nofun
    · rw [hsame]
      exact h.leads_ne hi
  | viewSkips i id reached l v address rest hi =>
    have hv : some v ≠ some w := h.leads_ne hi
    exact h.setTask i hv
  | viewFails i => exact h.setTask i (by simp [Task.leads, Task.connects])
  | viewConnects i id l v address rest hi =>
    have hv : some v ≠ some w := h.leads_ne hi
    have hset : Elects (s.apply (.addOtherWorker v id (.remote true))) w := h.apply fun known hc => by cases hc
    exact hset.setTask i hv
  | modelSent i id l model =>
    have hset : Elects (s.apply (.setModel id model)) w := h.apply fun known hc => by cases hc
    exact hset.setTask i (by simp [Task.leads, Task.connects])
  | modelRefused i id l =>
    have hset : Elects (s.apply (.release l)) w := h.apply fun known hc => by cases hc
    exact hset.setTask i (by simp [Task.leads, Task.connects])
  | reconnects i l v address rest hi =>
    have hv : some v ≠ some w := h.leads_ne hi
    exact h.setTask i hv
  | forks i l v hi =>
    have hv : some v ≠ some w := h.leads_ne hi
    refine Elects.setTask ?_ i (t := .join v l false) hv
    exact ⟨h.situation, h.watcher, h.tasks⟩
  | watches o v p hwatches =>
    refine h.setWatcher fun heq => ?_
    subst heq
    exact hwatches.settled h.watcher (by rw [h.situation]; rfl)
  | orphaned v ok known hp =>
    have hv : v ≠ w := h.ne hp rfl
    have hset : Elects (s.apply (.setLeader v { known with situation := .orphanedWaiting })) w := h.apply fun _ hc => by
      cases hc
      exact absurd rfl hv
    refine (hset.setWatcher (p := .asleep) fun heq => absurd heq hv).addTask ?_
    exact fun hleads => hv (Option.some.inj hleads)
  | outvoted v ok known hp =>
    have hv : v ≠ w := h.ne hp rfl
    have hset : Elects (s.apply (.setLeader v { known with situation := .election })) w := h.apply fun _ hc => by
      cases hc
      exact absurd rfl hv
    exact hset.setWatcher fun heq => absurd heq hv
  | elects v other delivered rest =>
    refine (h.setWatcher (v := v) (p := .electing (rest.erase other)) fun _ => rfl).addTask ?_
    simp [Task.leads, Task.connects]
  | disconnects v reached l => exact h.onLeader l _
  | cancelsWorker v => exact h.apply (c := .cancel v) fun known hc => by cases hc
  | cancelsLeader l => exact h.onLeader l _

end Elects

/-- **An election never ends.** From any reachable state in which a worker is in an election, its watcher is not about
to set its leader and no handler is about to give it one: as long as nobody is told to connect to a leader, it stays in
the election, whatever is lost, answered and forked around it. -/
theorem election_never_ends (leaders : Finset LeaderId) (orphanFork : WorkerId → Bool) (ops more : List (Op α))
    (w : WorkerId) (h : Elects (Core.run System.step (System.start leaders orphanFork) ops) w)
    (hmore : ∀ o ∈ more, o.connectsLeader = false) :
    ((Core.run System.step (System.start leaders orphanFork) (ops ++ more)).worker w).leader.situation = .election := by
  rw [Core.run_append]
  have hrun : Elects (Core.run System.step (Core.run System.step (System.start leaders orphanFork) ops) more) w := by
    refine @Core.run_inv _ (Op α) System.step (fun _ o => o.connectsLeader = false) (fun r => Elects r w) ?_ _ _ h ?_
    · intro r o hr ho
      exact hr.effect (step_effect o) ho
    · exact Core.along_iff.mpr fun _ o hn => hmore o (List.mem_of_getElem? hn)
  exact hrun.situation

/-- a leader connects to two workers over the network and is lost; the second worker knows the first, the first does
not know the second and is orphaned, until it hears of the election -/
theorem election_never_ends_two :
    let s : System ℕ := Core.run System.step (System.start {0} fun _ => true)
      ([.connectToRemoteWorker 0 1 9910, .advance 0 true, .advance 0 true, .advance 0 true, .advance 0 true,
        .connectToRemoteWorker 0 2 9911, .advance 1 true, .advance 1 true, .view 1 1 true, .advance 1 true,
        .advance 1 true, .cancelLeader 0,
        .watch 1 true, .watch 1 false, .watch 1 true, .watch 1 true,
        .watch 2 true, .watch 2 false, .watch 2 true, .watch 2 true, .watch 2 true, .elect 2 1 true, .watch 2 true,
        .advance 3 true, .advance 3 true, .advance 2 true, .advance 2 true] ++ [.watch 1 true, .watch 2 true])
    (s.worker 1).leader.situation = .election ∧ (s.worker 2).leader.situation = .election := by
  have htasks : (Core.run System.step (System.start {0} fun _ => true)
      ([.connectToRemoteWorker 0 1 9910, .advance 0 true, .advance 0 true, .advance 0 true, .advance 0 true,
        .connectToRemoteWorker 0 2 9911, .advance 1 true, .advance 1 true, .view 1 1 true, .advance 1 true,
        .advance 1 true, .cancelLeader 0,
        .watch 1 true, .watch 1 false, .watch 1 true, .watch 1 true,
        .watch 2 true, .watch 2 false, .watch 2 true, .watch 2 true, .watch 2 true, .elect 2 1 true, .watch 2 true,
        .advance 3 true, .advance 3 true, .advance 2 true, .advance 2 true] : List (Op ℕ))).tasks =
      [.done, .done, .done, .done] := by rfl
  have hleads : ∀ w, ∀ t ∈ [Task.done, .done, .done, .done], t.leads (α := ℕ) ≠ some w := by simp [Task.leads,
    Task.connects]
  exact ⟨election_never_ends {0} (fun _ => true) _ _ 1
      ⟨by decide +kernel, by decide +kernel, htasks ▸ hleads 1⟩ (by simp [Op.connectsLeader]),
    election_never_ends {0} (fun _ => true) _ _ 2
      ⟨by decide +kernel, by decide +kernel, htasks ▸ hleads 2⟩ (by simp [Op.connectsLeader])⟩

end BigWorlds.Membership
