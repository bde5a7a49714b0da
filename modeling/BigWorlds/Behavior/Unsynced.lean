/-
What unsynced behaviors hear (`behavior/lua.rs`, `spawn_unsynced`). They run for every event that comes over the channel
of the partition, whatever their triggers are.

- `unsynced_hear`: each of them hears events in the order in which they were sent, from when it subscribed, and all but
  the ones that it lost; and what a handler has answered for has been sent, in order.
- `unsynced_hear_all`: none is lost in a run in which no event is sent while a behavior is as far behind as the channel
  is long.

Witness: `unsynced_hear_all_slow`.

That a manager that shuts down sends `Shutdown` over the same channel is not part of this.
-/
import BigWorlds.Behavior.System

namespace BigWorlds.Behavior

open BigWorlds.Core (Listener)

/-! ## What is sent -/

/-- events that are still to be sent -/
def Phase.rest : Phase → List EventName
  | .announcing rest => rest
  | _ => []

/-- what a handler has sent is in the channel, in order -/
def Announced (sent : List EventName) (x : Handler) : Prop :=
  x.phase = .failed ∨ ∃ told, x.request.events = told ++ x.phase.rest ∧ told.Sublist sent

structure Heard (s : System) : Prop where
  listeners : ∀ l ∈ s.listeners, l.Hears s.sent
  handlers : ∀ h, Announced s.sent (s.handler h)

variable {s : System} {h : ℕ} {x : Handler} {sent : List EventName}

theorem Announced.mono (ha : Announced sent x) {sent' : List EventName} (hsent : sent.Sublist sent') :
    Announced sent' x :=
  ha.imp id fun ⟨told, hevents, htold⟩ => ⟨told, hevents, htold.trans hsent⟩

/-- on to another phase with the same events to send -/
theorem Announced.moves (ha : Announced sent x) {phase : Phase} (hphase : x.phase = .failed → phase = .failed)
    (hrest : phase = .failed ∨ phase.rest = x.phase.rest) : Announced sent { x with phase } := by
  rcases ha with hfailed | ⟨told, hevents, htold⟩
  · exact .inl (hphase hfailed)
  · rcases hrest with hfailed | hrest
    · exact .inl hfailed
    · exact .inr ⟨told, by rw [hevents, hrest], htold⟩

theorem Announced.mapBlock (ha : Announced sent x) (f : Pending → Pending) : Announced sent (x.mapBlock f) := by
  refine ha.moves (fun hfailed => by rw [hfailed]; rfl) (.inr ?_)
  cases x.phase <;> rfl

theorem Announced.proceed (ha : Announced sent x) : Announced sent x.proceed := by
  unfold Handler.proceed
  split
  next block rest last hphase =>
    have hcalling : x.phase ≠ .failed := by simp [hphase]
    split_ifs
    · exact ha.moves (fun hfailed => absurd hfailed hcalling) (.inl rfl)
    · split
      · exact ha.moves (fun hfailed => absurd hfailed hcalling) (.inr (by rw [hphase]; rfl))
      · exact ha.moves (fun hfailed => absurd hfailed hcalling) (.inr (by rw [hphase]; rfl))
    · split
      · exact ha.moves (fun hfailed => absurd hfailed hcalling) (.inr (by rw [hphase]; rfl))
      · exact ha.moves (fun hfailed => absurd hfailed hcalling) (.inr (by rw [hphase]; rfl))
    · exact ha
  next => exact ha

namespace Heard

theorem onTask (hh : Heard s) (t : ℕ) (f : Task → Task) : Heard (s.onTask t f) := ⟨hh.listeners, hh.handlers⟩

theorem onHandler (hh : Heard s) {f : Handler → Handler}
    (hf : Announced s.sent (s.handler h) → Announced s.sent (f (s.handler h))) : Heard (s.onHandler h f) where
  listeners := hh.listeners
  handlers h' := by
    simp only [System.onHandler, Function.update_apply]
    split_ifs
    · exact hf (hh.handlers h)
    · exact hh.handlers h'

/-- a handler goes on from a phase in which it has no event to send, or fails -/
theorem moves (hh : Heard s) {phase : Handler → Phase} (hphase : (s.handler h).phase ≠ .failed)
    (hrest : phase (s.handler h) = .failed ∨ (phase (s.handler h)).rest = (s.handler h).phase.rest) :
    Heard (s.onHandler h fun x => { x with phase := phase x }) :=
  hh.onHandler fun ha => ha.moves (fun hfailed => absurd hfailed hphase) hrest

theorem send (hh : Heard s) (h t : ℕ) : Heard (s.send h t) := by
  unfold System.send
  split
  · split
    · exact hh
    · split_ifs
      · exact (hh.onTask t _).onHandler fun ha => ha.mapBlock _
      · exact hh
      · exact hh.onHandler fun ha => ha.mapBlock _
  · exact hh

theorem announce (hh : Heard s) {event : EventName} {rest : List EventName}
    (hphase : (s.handler h).phase = .announcing (event :: rest)) :
    Heard { s.onHandler h fun x => { x with phase := .announcing rest } with sent := s.sent ++ [event] } where
  listeners l hl := (hh.listeners l hl).send event
  handlers h' := by
    simp only [System.onHandler, Function.update_apply]
    split_ifs
    · rcases hh.handlers h with hfailed | ⟨told, hevents, htold⟩
      · rw [hphase] at hfailed
        cases hfailed
      · rw [hphase] at hevents
        refine .inr ⟨told ++ [event], ?_, htold.append (List.Sublist.refl _)⟩
        rw [List.append_assoc]
        exact hevents
    · exact (hh.handlers h').mono (List.sublist_append_left _ _)

theorem step (hh : Heard s) (capacity : ℕ) (o : Op) : Heard (s.step capacity o) := by
  cases o <;> simp only [System.step]
  case spawn triggers machine => exact ⟨hh.listeners, hh.handlers⟩
  case unregister t => exact hh.onTask t _
  case subscribe =>
    refine ⟨fun l hl => ?_, hh.handlers⟩
    rcases List.mem_append.mp hl with hl | hl
    · exact hh.listeners l hl
    · rw [List.mem_singleton.mp hl]
      exact Listener.hears_subscribe s.sent
  case receive i =>
    exact ⟨Core.forall_mem_modify (fun l hl => hl.receive capacity) hh.listeners i, hh.handlers⟩
  case begins request =>
    refine ⟨hh.listeners, fun h => ?_⟩
    simp only [Function.update_apply]
    split_ifs
    · exact .inr ⟨[], rfl, List.nil_sublist _⟩
    · exact hh.handlers h
  case announce h =>
    split
    next event rest hphase => exact hh.announce hphase
    next => exact hh
  case collect h order =>
    split
    next hphase =>
      split_ifs
      · split
        · exact hh.moves (by simp [hphase]) (.inr (by rw [hphase]; rfl))
        · exact hh.moves (by simp [hphase]) (.inr (by rw [hphase]; rfl))
      · exact hh
    next => exact hh
  case collectMachines h =>
    split
    next handles hphase => exact hh.moves (by simp [hphase]) (.inr (by rw [hphase]; rfl))
    next => exact hh
  case send h t => exact hh.send h t
  case proceed h => exact hh.onHandler fun ha => ha.proceed
  case serve h =>
    split
    next hphase => exact hh.moves (by simp [hphase]) (.inr (by rw [hphase]; rfl))
    next => exact hh
  case fails h =>
    split
    next hphase => exact hh.moves (by simp [hphase]) (.inl rfl)
    next hphase => exact hh.moves (by simp [hphase]) (.inl rfl)
    next hphase => exact hh.moves (by simp [hphase]) (.inl rfl)
    next => exact hh
  case take t =>
    split
    · exact hh.onTask t _
    · exact hh
  case complete t =>
    split
    · exact (hh.onTask t _).onHandler fun ha => ha.mapBlock _
    · exact hh
  case ends t => exact ⟨hh.listeners, fun h => (hh.handlers h).mapBlock _⟩

end Heard

theorem heard_run (capacity : ℕ) (ops : List Op) : Heard (System.run capacity ops) := by
  have hstart : Heard .start := ⟨fun l hl => absurd hl List.not_mem_nil, fun _ => .inl rfl⟩
  exact Core.run_keeps (fun _ o hh => hh.step capacity o) hstart ops

/-- **What unsynced behaviors hear.** The events that are sent after they subscribed, in order, but for those that they
lost; and what a handler has answered for has been sent to them, in order. -/
theorem unsynced_hear (capacity : ℕ) (ops : List Op) :
    (∀ l ∈ (System.run capacity ops).listeners, l.Hears (System.run capacity ops).sent) ∧
      ∀ h, ((System.run capacity ops).handler h).phase = .answered →
        ((System.run capacity ops).handler h).request.events.Sublist (System.run capacity ops).sent := by
  have hh := heard_run capacity ops
  refine ⟨hh.listeners, fun h hanswered => ?_⟩
  rcases hh.handlers h with hfailed | ⟨told, hevents, htold⟩
  · rw [hanswered] at hfailed
    cases hfailed
  · rw [hevents, hanswered]
    simpa [Phase.rest] using htold

/-! ## Nothing lost -/

def Op.announces : Op → Bool
  | .announce _ => true
  | _ => false

/-- nobody is as far behind as the channel is long while an event is sent -/
def KeepsUp (capacity : ℕ) (s : System) (o : Op) : Prop :=
  o.announces = true → ∀ l ∈ s.listeners, s.sent.length < l.next + capacity

instance (capacity : ℕ) (s : System) (o : Op) : Decidable (KeepsUp capacity s o) := inferInstanceAs (Decidable (_ → _))

/-- all are in reach of the channel, and have lost nothing -/
def InReach (capacity : ℕ) (s : System) : Prop := ∀ l ∈ s.listeners, l.Within capacity s.sent ∧ l.lost = 0

/-- the operations that change what is sent or who listens -/
def Op.hears : Op → Bool
  | .subscribe | .receive _ | .announce _ => true
  | _ => false

theorem step_same (capacity : ℕ) (s : System) {o : Op} (ho : o.hears = false) :
    (s.step capacity o).sent = s.sent ∧ (s.step capacity o).listeners = s.listeners := by
  cases o <;> simp only [System.step]
  case subscribe => cases ho
  case receive i => cases ho
  case announce h => cases ho
  case send h t =>
    unfold System.send
    split
    · split
      · exact ⟨rfl, rfl⟩
      · split_ifs <;> exact ⟨rfl, rfl⟩
    · exact ⟨rfl, rfl⟩
  case collect h order =>
    split
    · split_ifs
      · split <;> exact ⟨rfl, rfl⟩
      · exact ⟨rfl, rfl⟩
    · exact ⟨rfl, rfl⟩
  case collectMachines | serve | fails | take | complete => split <;> exact ⟨rfl, rfl⟩
  case unregister | proceed => exact ⟨rfl, rfl⟩
  all_goals exact ⟨trivial, trivial⟩

theorem inReach_step (capacity : ℕ) (s : System) (o : Op) (hr : InReach capacity s) (ho : KeepsUp capacity s o) :
    InReach capacity (s.step capacity o) := by
  cases hhears : o.hears with
  | false =>
    obtain ⟨hsent, hlisteners⟩ := step_same capacity s hhears
    intro l hl
    rw [hsent]
    exact hr l (hlisteners ▸ hl)
  | true =>
    cases o <;> simp only [Op.hears, Bool.false_eq_true] at hhears
    case subscribe =>
      intro l hl
      rcases List.mem_append.mp hl with hl | hl
      · exact hr l hl
      · rw [List.mem_singleton.mp hl]
        exact ⟨Nat.le_add_right _ _, rfl⟩
    case receive i =>
      have hone : ∀ l : Listener EventName, l.Within capacity s.sent ∧ l.lost = 0 →
          (l.receive capacity s.sent).Within capacity s.sent ∧ (l.receive capacity s.sent).lost = 0 :=
        fun l hl => ⟨hl.1.receive, (Listener.lost_receive hl.1).trans hl.2⟩
      exact Core.forall_mem_modify hone hr i
    case announce h =>
      simp only [System.step]
      split
      · intro l hl
        refine ⟨?_, (hr l hl).2⟩
        have hbehind := ho rfl l hl
        show (s.sent ++ [_]).length ≤ l.next + capacity
        rw [List.length_append, List.length_singleton]
        exact hbehind
      · exact hr

/-- **Behaviors that keep up hear everything.** Where no event is sent while a behavior is as far behind as the channel
is long, each has heard all the events from when it subscribed up to where it is. -/
theorem unsynced_hear_all (capacity : ℕ) (ops : List Op)
    (h : Core.Along (System.step capacity) (KeepsUp capacity) .start ops) :
    ∀ l ∈ (System.run capacity ops).listeners,
      l.heard = ((System.run capacity ops).sent.take l.next).drop l.start := by
  have hreach : InReach capacity (System.run capacity ops) :=
    Core.run_inv (inReach_step capacity) (fun l hl => absurd hl List.not_mem_nil) h
  intro l hl
  exact ((heard_run capacity ops).listeners l hl).heard_eq (hreach l hl).2

/-- a channel of two: two events while the behavior is busy with the first one -/
def slowListener : List Op :=
  [.subscribe, .begins .step, .announce 0, .receive 0, .begins (.invoke ["bounce", "stop"]), .announce 1, .announce 1,
    .receive 0]

theorem unsynced_hear_all_slow : ∃ l, (System.run 2 slowListener).listeners = [l] ∧
    l.heard = ((System.run 2 slowListener).sent.take l.next).drop l.start :=
  ⟨_, rfl, unsynced_hear_all 2 slowListener (by decide) _ (List.mem_cons_self ..)⟩

/-- one event more, and the oldest of them is lost -/
example : (System.run 2 [.subscribe, .begins (.invoke ["bounce", "stop", "roll"]), .announce 0, .announce 0, .announce 0,
    .receive 0, .receive 0, .receive 0]).listeners = [⟨0, 3, ["stop", "roll"], 1⟩] := by decide

end BigWorlds.Behavior
