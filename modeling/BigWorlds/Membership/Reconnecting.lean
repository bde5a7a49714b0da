/-
An orphaned worker and its old leader (`worker::spawn` of `worker/mod.rs`). The task that an orphaned worker leaves
behind is to call the first of the addresses under which it knew its leader, before it forks a leader of its own or
shuts the worker down.

`never_reconnects`: no worker ever knows an address of its leader, whatever is connected and lost in whatever order, so
that no such call is ever made. Every place that sets the leader leaves the list of listeners empty; `IntroduceLeader`
receives the leader's listeners and drops them.
-/
import BigWorlds.Membership.Effects

namespace BigWorlds.Membership

variable {α : Type}

/-! ## Without addresses -/

def Watcher.Blank : Watcher α → Prop
  | .asking known | .lost known | .orphaned known | .outvoted known => known.listeners = []
  | _ => True

def Change.Blank : Change α → Prop
  | .setLeader _ known => known.listeners = []
  | _ => True

/-- an orphan task has no address to call, and none is calling -/
def Task.Blank : Task α → Prop
  | .orphan _ oldLeaderAddrs => oldLeaderAddrs = []
  | .join _ _ forOrphan | .getModel _ _ forOrphan | .joined _ _ _ forOrphan => forOrphan = false
  | .sendModel _ _ _ _ _ waiting | .modelSent _ _ _ waiting _ => waiting ≠ .join true
  | _ => True

/-- no worker knows an address of its leader -/
structure Blank (s : System α) : Prop where
  leader : ∀ w, (s.worker w).leader.listeners = []
  watcher : ∀ w, (s.worker w).watcher.Blank
  tasks : ∀ t ∈ s.tasks, t.Blank

variable {s : System α}

/-! ## One step -/

theorem afterAdding_blank (w : WorkerId) (l : LeaderId) {waiting : Waiting} (accepted : Bool)
    (h : waiting ≠ .join true) : (afterAdding (α := α) w l waiting accepted).Blank := by
  cases waiting with
  | register => trivial
  | callWorker => trivial
  | join forOrphan =>
    cases forOrphan with
    | true => exact absurd rfl h
    | false => cases accepted <;> trivial

theorem Adds.blank {l : LeaderId} {w : WorkerId} {t : Task α} {link : Link} {entry : Registered α} {waiting : Waiting}
    {added : Task α} (h : Adds l w t link entry waiting added) (ht : t.Blank) : waiting ≠ .join true ∧ added.Blank := by
  cases h with
  | register => exact ⟨by decide, trivial⟩
  | introduced address => exact ⟨by decide, trivial⟩
  | join forOrphan =>
    obtain rfl : forOrphan = false := ht
    exact ⟨by decide, rfl⟩

/-- what a handler does next -/
theorem Moves.blank {ok : Bool} {t t' : Task α} {c : Change α} (h : Moves s ok t c t') (ht : t.Blank) :
    c.Blank ∧ t'.Blank := by
  cases h with
  | stays => exact ⟨trivial, ht⟩
  | enters hadds => exact ⟨trivial, (hadds.blank ht).2⟩
  | holds model hadds => exact ⟨trivial, (hadds.blank ht).1⟩
  | keepsLeader l w duplex t' ht' => exact ⟨trivial, by rcases ht' with rfl | rfl <;> trivial⟩
  | takesLeader l w duplex t' ht' => exact ⟨rfl, by rcases ht' with rfl | rfl <;> trivial⟩
  | viewed l w address rest t' ht' => exact ⟨rfl, by rcases ht' with rfl | rfl <;> trivial⟩
  | registered => exact ⟨rfl, trivial⟩
  | getsModel => exact ⟨trivial, ht⟩
  | getsNoModel => exact ⟨trivial, ht⟩
  | joined w l model => exact ⟨rfl, by cases model <;> trivial⟩
  | sends => exact ⟨trivial, ht⟩
  | sendFails => exact ⟨trivial, ht⟩
  | accepts l w entry waiting => exact ⟨trivial, afterAdding_blank w l true ht⟩
  | refuses l w entry waiting accepted => exact ⟨trivial, afterAdding_blank w l false ht⟩
  | electionTaken => exact ⟨rfl, trivial⟩
  | _ => exact ⟨trivial, trivial⟩

theorem Commands.blank {o : Op α} {t : Task α} (h : Commands s o t) : t.Blank := by
  cases h with
  | connectToLeader => exact rfl
  | _ => trivial

theorem Watches.blank {w : WorkerId} {p : Watcher α} (hleader : (s.worker w).leader.listeners = [])
    (hwatcher : (s.worker w).watcher.Blank) (h : Watches s w (s.worker w).watcher p) : p.Blank := by
  generalize hp : (s.worker w).watcher = before at h hwatcher
  cases h with
  | wakes => exact hleader
  | unanswered => exact hwatcher
  | alone => exact hwatcher
  | notAlone => exact hwatcher
  | _ => trivial

namespace Blank

/-- a worker is changed, and knows no address still -/
theorem onWorker (h : Blank s) {w : WorkerId} {f : Worker α → Worker α} (hl : (f (s.worker w)).leader.listeners = [])
    (hw : (f (s.worker w)).watcher.Blank) : Blank (s.onWorker w f) where
  leader v := by
    rw [System.worker_onWorker]
    split_ifs
    · exact hl
    · exact h.leader v
  watcher v := by
    rw [System.worker_onWorker]
    split_ifs
    · exact hw
    · exact h.watcher v
  tasks := h.tasks

theorem onLeader (h : Blank s) (l : LeaderId) (f : Leader α → Leader α) : Blank (s.onLeader l f) :=
  ⟨h.leader, h.watcher, h.tasks⟩

theorem apply (h : Blank s) {c : Change α} (hc : c.Blank) : Blank (s.apply c) := by
  cases c <;> simp only [System.apply]
  case nothing => exact h
  case setLeader w known => exact h.onWorker hc (h.watcher w)
  case addOtherWorker w other link => exact h.onWorker (h.leader w) (h.watcher w)
  case setModel w model => exact h.onWorker (h.leader w) (h.watcher w)
  case insertWorker l w entry => exact h.onLeader l _
  case hold l => exact h.onLeader l _
  case pullModel l model => exact h.onLeader l _
  case release l => exact h.onLeader l _
  case cancel w => exact h.onWorker (h.leader w) (h.watcher w)

theorem setTask (h : Blank s) (i : ℕ) {t : Task α} (ht : t.Blank) : Blank (s.setTask i t) where
  leader := h.leader
  watcher := h.watcher
  tasks u hu := (s.mem_setTask hu).elim (h.tasks u) fun heq => heq ▸ ht

theorem addTask (h : Blank s) {t : Task α} (ht : t.Blank) : Blank (s.addTask t) where
  leader := h.leader
  watcher := h.watcher
  tasks u hu := (s.mem_addTask hu).elim (h.tasks u) fun heq => heq ▸ ht

theorem setWatcher (h : Blank s) (w : WorkerId) {p : Watcher α} (hp : p.Blank) : Blank (s.setWatcher w p) :=
  h.onWorker (h.leader w) hp

/-- without an address there is no reconnection -/
theorem reconnect (h : Blank s) (i : ℕ) (l : LeaderId) : s.reconnect i l = s := by
  unfold System.reconnect
  split
  · next w address rest hi =>
    have hblank : address :: rest = [] := h.tasks _ (List.mem_of_getElem? hi)
    cases hblank
  · rfl

theorem effect (h : Blank s) {o : Op α} {s' : System α} (he : Effect s o s') : Blank s' := by
  cases he with
  | idle => exact h
  | command o t ht => exact h.addTask ht.blank
  | message i ok t c t' hi hmoves =>
    obtain ⟨hchange, htask⟩ := hmoves.blank (h.tasks t (List.mem_of_getElem? hi))
    exact (h.apply hchange).setTask i htask
  | viewSkips i => exact h.setTask i trivial
  | viewFails i => exact h.setTask i trivial
  | viewConnects i id => exact (h.apply (c := .addOtherWorker _ id (.remote true)) trivial).setTask i trivial
  | modelSent i id l model rest => exact (h.apply (c := .setModel id model) trivial).setTask i trivial
  | modelRefused i id l => exact (h.apply (c := .release l) trivial).setTask i trivial
  | reconnects i l w address rest hi => cases h.tasks _ (List.mem_of_getElem? hi)
  | forks i l w =>
    refine Blank.setTask ?_ i rfl
    exact ⟨h.leader, h.watcher, h.tasks⟩
  | watches o w p hwatches => exact h.setWatcher w (hwatches.blank (h.leader w) (h.watcher w))
  | orphaned w ok known hp =>
    have hknown : known.listeners = [] := by
      have hw := h.watcher w
      rwa [hp] at hw
    have hset : Blank (s.apply (.setLeader w { known with situation := .orphanedWaiting })) := h.apply hknown
    exact (hset.setWatcher w (p := .asleep) trivial).addTask hknown
  | outvoted w ok known hp =>
    have hknown : known.listeners = [] := by
      have hw := h.watcher w
      rwa [hp] at hw
    have hset : Blank (s.apply (.setLeader w { known with situation := .election })) := h.apply hknown
    exact hset.setWatcher w trivial
  | elects w other delivered rest hp hother =>
    exact (h.setWatcher w (p := .electing (rest.erase other)) trivial).addTask trivial
  | disconnects w reached l => exact h.onLeader l _
  | cancelsWorker w => exact h.apply (c := .cancel w) trivial
  | cancelsLeader l => exact h.onLeader l _

/-- every run -/
theorem run (h : Blank s) (ops : List (Op α)) : Blank (Core.run System.step s ops) :=
  Core.run_keeps (fun _ o hs => hs.effect (step_effect o)) h ops

end Blank

/-! ## Runs -/

theorem start_blank (leaders : Finset LeaderId) (orphanFork : WorkerId → Bool) :
    Blank (System.start (α := α) leaders orphanFork) where
  leader _ := rfl
  watcher _ := trivial
  tasks _ ht := absurd ht List.not_mem_nil

/-- **No orphan calls its old leader.** Whatever leaders there are, and in whatever order parties are connected, lost,
introduced and stopped: no worker knows an address of its leader, no orphan task has one to call, and a reconnection is
never under way or possible. -/
theorem never_reconnects (leaders : Finset LeaderId) (orphanFork : WorkerId → Bool)
    (ops : List (Op α)) :
    (∀ w, ((Core.run System.step (System.start leaders orphanFork) ops).worker w).leader.listeners = []) ∧
      (∀ t ∈ (Core.run System.step (System.start leaders orphanFork) ops).tasks, t.Blank) ∧
      ∀ i l, System.reconnect (Core.run System.step (System.start leaders orphanFork) ops) i l =
        Core.run System.step (System.start leaders orphanFork) ops := by
  have h : Blank (Core.run System.step (System.start leaders orphanFork) ops) :=
    (start_blank leaders orphanFork).run ops
  exact ⟨h.leader, h.tasks, h.reconnect⟩

end BigWorlds.Membership
