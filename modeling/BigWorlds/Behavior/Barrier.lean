/-
What a `Step` and an `Invoke` wait for. Whatever is under way beside it, and whatever ends, is added or is removed while
it runs:

- `barrier`: when a handler has answered, each behavior and machine that was there when it began, is registered and has
  not ended has run each event that triggers it as often as the handler was given it.
- `never_more_often`: no behavior ever runs an event more often than that, nor one that does not trigger it.
- `quiet_between`: while no handler is under way no behavior is running, nor has anything to run.

Witnesses: `barrier_pair`, `quiet_between_pair`.
-/
import Mathlib.Data.List.Count
import Mathlib.Data.List.Range
import Mathlib.Tactic.SplitIfs
import BigWorlds.Behavior.System

namespace BigWorlds.Behavior

/-! ## Counting -/

/-- how often a handler is to have a task run an event -/
def Handler.wanted (x : Handler) (y : Task) (e : EventName) : ℕ :=
  if e ∈ y.triggers then x.request.events.count e else 0

def Handler.block (x : Handler) : List Pending :=
  match x.phase with
  | .calling block _ _ => block
  | _ => []

def Handler.handles (x : Handler) : List ℕ :=
  match x.phase with
  | .collectingMachines handles => handles
  | _ => []

/-- a call to the task for the event that has not come to an end -/
def Pending.awaits (t : ℕ) (e : EventName) (p : Pending) : Bool := p.task = t && p.event = e && !p.settled

/-- how often it is still to do so -/
def Handler.owed (x : Handler) (t : ℕ) (y : Task) (e : EventName) : ℕ :=
  match x.phase with
  | .collectingMachines handles => handles.count t * x.wanted y e
  | .calling block rest _ => block.countP (Pending.awaits t e) + rest.count (t, e)
  | _ => 0

/-- it has asked for the handles, those of machines or the others -/
def Handler.collected (x : Handler) (machine : Bool) : Bool :=
  match x.phase with
  | .announcing _ => false
  | .collectingMachines _ => !machine
  | .calling _ _ last => last || !machine
  | _ => true

/-- what is with a task -/
def Task.inflight (y : Task) : List Call := y.running.toList ++ y.queue

theorem count_calls (task : ℕ → Task) (events : List EventName) (handles : List ℕ) (t : ℕ) (e : EventName) :
    (calls task events handles).count (t, e) =
      handles.count t * if e ∈ (task t).triggers then events.count e else 0 := by
  have hone : ∀ t', ((events.filter (· ∈ (task t').triggers)).map (t', ·)).count (t, e) =
      if t' = t then (if e ∈ (task t).triggers then events.count e else 0) else 0 := by
    intro t'
    split_ifs with ht he
    · subst ht
      rw [List.count_map_of_injective _ _ (Prod.mk_right_injective t')]
      exact List.count_filter (by simpa using he)
    · subst ht
      refine List.count_eq_zero.mpr fun hmem => he ?_
      obtain ⟨e', he', heq⟩ := List.mem_map.mp hmem
      obtain rfl := (Prod.mk.inj heq).2
      simpa using (List.mem_filter.mp he').2
    · refine List.count_eq_zero.mpr fun hmem => ht ?_
      obtain ⟨e', _, heq⟩ := List.mem_map.mp hmem
      exact (Prod.mk.inj heq).1
  induction handles with
  | nil => simp [calls]
  | cons t' handles ih =>
    rw [calls, List.flatMap_cons, List.count_append, hone]
    rw [calls] at ih
    rw [ih, List.count_cons]
    by_cases ht : t' = t
    · simp only [ht, if_true, beq_self_eq_true]
      rw [Nat.add_mul, Nat.one_mul, Nat.add_comm]
    · simp [ht]

theorem countP_of (pending : List (ℕ × EventName)) (t : ℕ) (e : EventName) :
    (pending.map Pending.of).countP (Pending.awaits t e) = pending.count (t, e) := by
  rw [List.countP_map, List.count]
  refine List.countP_congr fun call _ => ?_
  show Pending.awaits t e ⟨call.1, call.2, .unsent⟩ = true ↔ (call == (t, e)) = true
  simp [Pending.awaits, Pending.settled, Prod.ext_iff]

/-- the calls that a `Step` makes at once are to different tasks -/
theorem nodup_step_calls (task : ℕ → Task) (e : EventName) {handles : List ℕ} (h : handles.Nodup) :
    (((calls task [e] handles).map Pending.of).map (·.task)).Nodup := by
  refine List.Sublist.nodup ?_ h
  clear h
  induction handles with
  | nil => exact List.nil_sublist _
  | cons t handles ih =>
    rw [calls, List.flatMap_cons, List.map_append, List.map_append]
    have hone : ((([e].filter (· ∈ (task t).triggers)).map (t, ·)).map Pending.of).map (·.task) = [] ∨
        ((([e].filter (· ∈ (task t).triggers)).map (t, ·)).map Pending.of).map (·.task) = [t] := by
      by_cases he : e ∈ (task t).triggers
      · exact .inr (by simp [he, Pending.of])
      · exact .inl (by simp [he])
    rcases hone with hone | hone
    · rw [hone]
      exact ih.cons t
    · rw [hone]
      exact ih.cons_cons t

/-! ## What is owed -/

/-- a handler and a task: what has been run and what is owed make up what is wanted -/
structure Owes (h t : ℕ) (x : Handler) (y : Task) : Prop where
  le : ∀ e, y.ran.count ⟨h, e⟩ + x.owed t y e ≤ x.wanted y e
  early : x.collected y.machine = false → ∀ e, y.ran.count ⟨h, e⟩ = 0 ∧ x.owed t y e = 0
  eq : x.phase ≠ .failed → x.collected y.machine = true → t < x.since → y.registered = true → y.live = true →
    ∀ e, y.ran.count ⟨h, e⟩ + x.owed t y e = x.wanted y e
  link : ∀ c ∈ y.inflight, c.handler = h → ∃ p ∈ x.block, p.task = t ∧ p.event = c.event ∧ p.stage = .sent

structure Task.Sound (y : Task) : Prop where
  single : (y.inflight.map (·.handler)).Nodup
  ended : y.live = false → y.inflight = []

structure Inv (s : System) : Prop where
  pairs : ∀ h t, Owes h t (s.handler h) (s.task t)
  sound : ∀ t, (s.task t).Sound
  distinct : ∀ h, ((s.handler h).block.map (·.task)).Nodup
  tasks : ∀ t, s.tasks ≤ t → s.task t = .none
  since : ∀ h, (s.handler h).since ≤ s.tasks
  known : ∀ h, ∀ t ∈ (s.handler h).handles, t < s.tasks
  idle : ∀ h, s.handlers ≤ h → (s.handler h).phase = .failed
  fresh : ∀ h, s.handlers ≤ h → ∀ t, ∀ c ∈ (s.task t).ran, c.handler ≠ h

variable {s : System} {h t : ℕ} {x : Handler} {y : Task}

theorem mem_handles {machine : Bool} : t ∈ s.handles machine ↔
    t < s.tasks ∧ (s.task t).registered = true ∧ (s.task t).machine = machine := by
  simp [System.handles]

theorem nodup_handles (s : System) (machine : Bool) : (s.handles machine).Nodup :=
  (List.nodup_range).filter _

theorem inv_start : Inv .start where
  pairs h t := by
    refine ⟨fun e => Nat.zero_le _, fun _ e => ⟨rfl, rfl⟩, fun hne => absurd rfl hne, ?_⟩
    intro c hc
    exact absurd hc List.not_mem_nil
  sound t := ⟨List.nodup_nil, fun _ => rfl⟩
  distinct h := List.nodup_nil
  tasks t _ := rfl
  since h := Nat.le_refl 0
  known h t ht := absurd ht List.not_mem_nil
  idle h _ := rfl
  fresh h _ t c hc := absurd hc List.not_mem_nil

/-! ## Steps of a handler alone -/

/-- a handler is changed, and owes every task still what it is to -/
theorem Inv.onHandler (hi : Inv s) {f : Handler → Handler} (hpairs : ∀ t, Owes h t (f (s.handler h)) (s.task t))
    (hdistinct : ((f (s.handler h)).block.map (·.task)).Nodup) (hsince : (f (s.handler h)).since = (s.handler h).since)
    (hknown : ∀ t ∈ (f (s.handler h)).handles, t < s.tasks) (hphase : (s.handler h).phase ≠ .failed) :
    Inv (s.onHandler h f) where
  pairs h' t := by
    simp only [System.onHandler, Function.update_apply]
    split_ifs with hh
    · rw [hh]
      exact hpairs t
    · exact hi.pairs h' t
  sound := hi.sound
  distinct h' := by
    simp only [System.onHandler, Function.update_apply]
    split_ifs
    · exact hdistinct
    · exact hi.distinct h'
  tasks := hi.tasks
  since h' := by
    simp only [System.onHandler, Function.update_apply]
    split_ifs
    · exact hsince ▸ hi.since h
    · exact hi.since h'
  known h' := by
    simp only [System.onHandler, Function.update_apply]
    split_ifs
    · exact hknown
    · exact hi.known h'
  idle h' hh' := by
    simp only [System.onHandler, Function.update_apply]
    split_ifs with hh
    · exact absurd (hi.idle h (hh ▸ hh')) hphase
    · exact hi.idle h' hh'
  fresh := hi.fresh

/-- a task has no call of a handler that waits for none -/
theorem Owes.none_inflight (ho : Owes h t x y) (hwaits : ∀ p ∈ x.block, p.stage ≠ .sent) :
    ∀ c ∈ y.inflight, c.handler ≠ h := by
  intro c hc hh
  obtain ⟨p, hp, _, _, hsent⟩ := ho.link c hc hh
  exact hwaits p hp hsent

/-- on to a phase in which it owes the same -/
theorem Owes.moves (ho : Owes h t x y) {phase : Phase} (hwaits : ∀ p ∈ x.block, p.stage ≠ .sent)
    (hphase : x.phase ≠ .failed) (howed : ∀ e, ({ x with phase } : Handler).owed t y e = x.owed t y e)
    (hcollected : ({ x with phase } : Handler).collected y.machine = x.collected y.machine) :
    Owes h t { x with phase } y where
  le e := by
    rw [howed]
    exact ho.le e
  early hc e := by
    rw [howed]
    exact ho.early (hcollected ▸ hc) e
  eq _ hc ht hr hl e := by
    rw [howed]
    exact ho.eq hphase (hcollected ▸ hc) ht hr hl e
  link c hc hh := absurd hh (ho.none_inflight hwaits c hc)

/-- a handler that fails owes nothing any more -/
theorem Owes.fails (ho : Owes h t x y) (hwaits : ∀ p ∈ x.block, p.stage ≠ .sent) :
    Owes h t { x with phase := .failed } y where
  le e := Nat.le_trans (Nat.add_le_add_left (Nat.zero_le _) _) (ho.le e)
  early hc := by cases hc
  eq hne := absurd rfl hne
  link c hc hh := absurd hh (ho.none_inflight hwaits c hc)

theorem Inv.announce (hi : Inv s) {event : EventName} {rest : List EventName}
    (hphase : (s.handler h).phase = .announcing (event :: rest)) :
    Inv (s.onHandler h fun x => { x with phase := .announcing rest }) := by
  refine hi.onHandler (fun t => ?_) List.nodup_nil rfl (by simp [Handler.handles]) (by simp [hphase])
  refine (hi.pairs h t).moves (by simp [Handler.block, hphase]) (by simp [hphase]) (fun e => ?_) ?_
  · simp only [Handler.owed, hphase]
  · simp only [Handler.collected, hphase]

theorem Inv.fails (hi : Inv s) (hwaits : ∀ p ∈ (s.handler h).block, p.stage ≠ .sent)
    (hphase : (s.handler h).phase ≠ .failed) : Inv (s.onHandler h fun x => { x with phase := .failed }) :=
  hi.onHandler (fun t => (hi.pairs h t).fails hwaits) List.nodup_nil rfl (by simp [Handler.handles]) hphase

theorem Inv.serve (hi : Inv s) (hphase : (s.handler h).phase = .serving) :
    Inv (s.onHandler h fun x => { x with phase := .answered }) := by
  refine hi.onHandler (fun t => ?_) List.nodup_nil rfl (by simp [Handler.handles]) (by simp [hphase])
  refine (hi.pairs h t).moves (by simp [Handler.block, hphase]) (by simp [hphase]) (fun e => ?_) ?_
  · simp only [Handler.owed, hphase]
  · simp only [Handler.collected, hphase]

/-- how often a handle is in the list that the handler takes them in -/
theorem count_order {order : List ℕ} {machine : Bool} (horder : order.Perm (s.handles machine)) (t : ℕ) :
    order.count t = if t ∈ s.handles machine then 1 else 0 := by
  rw [horder.count_eq]
  split_ifs with ht
  · exact List.count_eq_one_of_mem (nodup_handles s machine) ht
  · exact List.count_eq_zero.mpr ht

/-- a handler that gets handles of one kind owes each of them its events -/
theorem Owes.collect (ho : Owes h t x (s.task t)) (machine : Bool) {phase : Phase}
    (hwaits : ∀ p ∈ x.block, p.stage ≠ .sent) (hphase : x.phase ≠ .failed) (hsince : x.since ≤ s.tasks)
    (hnot : x.collected machine = false)
    (howed : ∀ e, ({ x with phase } : Handler).owed t (s.task t) e =
      x.owed t (s.task t) e + (if t ∈ s.handles machine then 1 else 0) * x.wanted (s.task t) e)
    (hcollected : ∀ m, ({ x with phase } : Handler).collected m = (x.collected m || m == machine)) :
    Owes h t { x with phase } (s.task t) := by
  have hzero : t ∈ s.handles machine → ∀ e, (s.task t).ran.count ⟨h, e⟩ = 0 ∧ x.owed t (s.task t) e = 0 :=
    fun ht => ho.early ((mem_handles.1 ht).2.2 ▸ hnot)
  refine ⟨fun e => ?_, fun hc e => ?_, fun _ hc ht hr hl e => ?_, ?_⟩
  · rw [howed]
    show _ ≤ x.wanted (s.task t) e
    split_ifs with ht
    · have hz := hzero ht e
      omega
    · have hle := ho.le e
      omega
  · rw [hcollected, Bool.or_eq_false_iff, beq_eq_false_iff_ne] at hc
    have hz := ho.early hc.1 e
    rw [howed, if_neg fun ht => hc.2 (mem_handles.1 ht).2.2]
    omega
  · rw [howed]
    show _ = x.wanted (s.task t) e
    by_cases hm : (s.task t).machine = machine
    · have ht : t ∈ s.handles machine := mem_handles.2 ⟨Nat.lt_of_lt_of_le ht hsince, hr, hm⟩
      have hz := hzero ht e
      rw [if_pos ht]
      omega
    · rw [hcollected, beq_eq_false_iff_ne.mpr hm, Bool.or_false] at hc
      have heq := ho.eq hphase hc ht hr hl e
      rw [if_neg fun ht => hm (mem_handles.1 ht).2.2]
      omega
  · intro c hc hh
    exact absurd hh (ho.none_inflight hwaits c hc)

theorem Inv.collectStep (hi : Inv s) {order : List ℕ} (hphase : (s.handler h).phase = .announcing [])
    (horder : order.Perm (s.handles false)) (hstep : (s.handler h).request = .step) :
    Inv (s.onHandler h fun x =>
      { x with phase := .calling ((calls s.task x.request.events order).map Pending.of) [] false }) := by
  refine hi.onHandler (fun t => ?_) ?_ rfl (by simp [Handler.handles]) (by simp [hphase])
  · refine (hi.pairs h t).collect false (by simp [Handler.block, hphase]) (by simp [hphase]) (hi.since h) ?_ ?_ ?_
    · simp only [Handler.collected, hphase]
    · intro e
      simp only [Handler.owed, hphase, List.count_nil, Nat.add_zero, Nat.zero_add]
      rw [countP_of, count_calls, count_order horder]
      rfl
    · intro m
      simp only [Handler.collected, hphase]
      cases m <;> rfl
  · show (((calls s.task (s.handler h).request.events order).map Pending.of).map (·.task)).Nodup
    rw [hstep]
    exact nodup_step_calls s.task "step" (horder.nodup_iff.mpr (nodup_handles s false))

theorem Inv.collectInvoke (hi : Inv s) {order : List ℕ} (hphase : (s.handler h).phase = .announcing [])
    (horder : order.Perm (s.handles false)) :
    Inv (s.onHandler h fun x => { x with phase := .collectingMachines order }) := by
  refine hi.onHandler (fun t => ?_) List.nodup_nil rfl ?_ (by simp [hphase])
  · refine (hi.pairs h t).collect false (by simp [Handler.block, hphase]) (by simp [hphase]) (hi.since h) ?_ ?_ ?_
    · simp only [Handler.collected, hphase]
    · intro e
      simp only [Handler.owed, hphase, Nat.zero_add]
      rw [count_order horder]
      rfl
    · intro m
      simp only [Handler.collected, hphase]
      cases m <;> rfl
  · intro t ht
    exact (mem_handles.1 (horder.mem_iff.mp ht)).1

theorem Inv.collectMachines (hi : Inv s) {handles : List ℕ}
    (hphase : (s.handler h).phase = .collectingMachines handles) :
    Inv (s.onHandler h fun x =>
      { x with phase := .calling [] (calls s.task x.request.events (handles ++ s.handles true)) true }) := by
  refine hi.onHandler (fun t => ?_) List.nodup_nil rfl (by simp [Handler.handles]) (by simp [hphase])
  refine (hi.pairs h t).collect true (by simp [Handler.block, hphase]) (by simp [hphase]) (hi.since h) ?_ ?_ ?_
  · simp only [Handler.collected, hphase]
    rfl
  · intro e
    simp only [Handler.owed, hphase, List.countP_nil, Nat.zero_add]
    rw [count_calls, List.count_append, Nat.add_mul, count_order (List.Perm.refl _)]
    rfl
  · intro m
    simp only [Handler.collected, hphase]
    cases m <;> rfl

theorem Handler.proceed_cases (x : Handler) : x.proceed = x ∨
    ∃ block rest last, x.phase = .calling block rest last ∧ (∀ p ∈ block, p.settled = true) ∧
      (x.proceed = { x with phase := .failed } ∨
        (∃ call others, rest = call :: others ∧ x.proceed = { x with phase := .calling [.of call] others last }) ∨
        rest = [] ∧ x.proceed = { x with phase := if last then .serving else .collectingMachines [] }) := by
  unfold Handler.proceed
  cases hphase : x.phase with
  | calling block rest last =>
    dsimp only
    by_cases hall : block.all (·.settled) = true
    · rw [if_pos hall]
      refine .inr ⟨block, rest, last, rfl, List.all_eq_true.mp hall, ?_⟩
      by_cases hstops : x.stops block last = true
      · exact .inl (if_pos hstops)
      · rw [if_neg hstops]
        cases rest with
        | nil => exact .inr (.inr ⟨rfl, rfl⟩)
        | cons call others => exact .inr (.inl ⟨call, others, rfl, rfl⟩)
    · exact .inl (if_neg hall)
  | _ => exact .inl rfl

theorem Pending.settled_ne_sent {p : Pending} (h : p.settled = true) : p.stage ≠ .sent := by
  intro hsent
  simp [Pending.settled, hsent] at h

theorem onHandler_self {f : Handler → Handler} (h : f (s.handler t) = s.handler t) : s.onHandler t f = s := by
  unfold System.onHandler
  rw [h, Function.update_eq_self]

/-- the calls under way have come to an end -/
theorem Inv.proceed (hi : Inv s) (h : ℕ) : Inv (s.onHandler h Handler.proceed) := by
  rcases (s.handler h).proceed_cases with hsame | ⟨block, rest, last, hphase, hsettled, hnext⟩
  · rw [onHandler_self hsame]
    exact hi
  · have hlive : (s.handler h).phase ≠ .failed := by simp [hphase]
    have hblock : (s.handler h).block = block := by rw [Handler.block, hphase]
    have hwaits : ∀ p ∈ (s.handler h).block, p.stage ≠ .sent := by
      rw [hblock]
      exact fun p hp => Pending.settled_ne_sent (hsettled p hp)
    have howed : ∀ t y e, (s.handler h).owed t y e = rest.count (t, e) := by
      intro t y e
      have hnone : block.countP (Pending.awaits t e) = 0 :=
        List.countP_eq_zero.mpr fun p hp => by simp [Pending.awaits, hsettled p hp]
      simp only [Handler.owed, hphase, hnone, Nat.zero_add]
    rcases hnext with hfails | ⟨call, others, rfl, hcall⟩ | ⟨rfl, hends⟩
    · refine hi.onHandler (fun t => ?_) ?_ ?_ ?_ hlive <;> rw [hfails]
      · exact (hi.pairs h t).fails hwaits
      · exact List.nodup_nil
      · exact fun t ht => absurd ht List.not_mem_nil
    · refine hi.onHandler (fun t => ?_) ?_ ?_ ?_ hlive <;> rw [hcall]
      · refine (hi.pairs h t).moves hwaits hlive (fun e => ?_) (by simp only [Handler.collected, hphase])
        rw [howed, List.count_cons]
        simp only [Handler.owed]
        rw [← List.map_singleton, countP_of, List.count_singleton, Nat.add_comm]
      · exact List.nodup_singleton _
      · exact fun t ht => absurd ht List.not_mem_nil
    · refine hi.onHandler (fun t => ?_) ?_ ?_ ?_ hlive <;> rw [hends]
      · refine (hi.pairs h t).moves hwaits hlive (fun e => ?_) ?_
        · rw [howed]
          cases last <;> simp [Handler.owed]
        · simp only [Handler.collected, hphase]
          cases last <;> rfl
      · cases last <;> exact List.nodup_nil
      · intro t ht
        cases last <;> exact absurd ht List.not_mem_nil

/-! ## Steps of a task -/

/-- a task is changed, and what every handler is owed stays right -/
theorem Inv.onTask (hi : Inv s) {f : Task → Task} (hpairs : ∀ h, Owes h t (s.handler h) (f (s.task t)))
    (hsound : (f (s.task t)).Sound) (hran : (f (s.task t)).ran = (s.task t).ran)
    (hnone : s.tasks ≤ t → f (s.task t) = .none) :
    Inv (s.onTask t f) where
  pairs h t' := by
    simp only [System.onTask, Function.update_apply]
    split_ifs with ht
    · rw [ht]
      exact hpairs h
    · exact hi.pairs h t'
  sound t' := by
    simp only [System.onTask, Function.update_apply]
    split_ifs
    · exact hsound
    · exact hi.sound t'
  distinct := hi.distinct
  tasks t' ht' := by
    simp only [System.onTask, Function.update_apply]
    split_ifs with ht
    · exact hnone (ht ▸ ht')
    · exact hi.tasks t' ht'
  since := hi.since
  known := hi.known
  idle := hi.idle
  fresh h hh t' := by
    simp only [System.onTask, Function.update_apply]
    split_ifs with ht
    · rw [hran]
      exact hi.fresh h hh t
    · exact hi.fresh h hh t'

theorem Inv.unregister (hi : Inv s) (t : ℕ) : Inv (s.onTask t fun y => { y with registered := false }) := by
  refine hi.onTask (fun h => ?_) ⟨(hi.sound t).single, (hi.sound t).ended⟩ rfl fun ht => by rw [hi.tasks t ht]; rfl
  have ho := hi.pairs h t
  exact ⟨ho.le, ho.early, fun _ _ _ hr => absurd hr Bool.false_ne_true, ho.link⟩

/-- the task has something with it, so it is one that was spawned, and has not ended -/
theorem Inv.of_inflight (hi : Inv s) {c : Call} (hc : c ∈ (s.task t).inflight) :
    t < s.tasks ∧ (s.task t).live = true := by
  constructor
  · refine Nat.lt_of_not_le fun ht => ?_
    rw [hi.tasks t ht] at hc
    exact absurd hc List.not_mem_nil
  · refine Bool.of_not_eq_false fun hl => ?_
    rw [(hi.sound t).ended hl] at hc
    exact absurd hc List.not_mem_nil

theorem Inv.take (hi : Inv s) {call : Call} {queue : List Call} (hqueue : (s.task t).queue = call :: queue)
    (hrunning : (s.task t).running = none) :
    Inv (s.onTask t fun y => { y with queue, running := some call }) := by
  have hsame : ({ s.task t with queue, running := some call } : Task).inflight = (s.task t).inflight := by
    simp [Task.inflight, hqueue, hrunning]
  have hcall : call ∈ (s.task t).inflight := by simp [Task.inflight, hqueue]
  refine hi.onTask (fun h => ?_) ?_ rfl fun ht => absurd (hi.of_inflight hcall).1 (Nat.not_lt.mpr ht)
  · have ho := hi.pairs h t
    exact ⟨ho.le, ho.early, ho.eq, hsame ▸ ho.link⟩
  · exact ⟨hsame ▸ (hi.sound t).single, hsame ▸ (hi.sound t).ended⟩

/-! ## Steps of both -/

@[simp] theorem block_mapBlock (x : Handler) (f : Pending → Pending) :
    (x.mapBlock f).block = x.block.map f := by
  cases hphase : x.phase <;> simp [Handler.block, Handler.mapBlock, Phase.mapBlock, hphase]

@[simp] theorem collected_mapBlock (x : Handler) (f : Pending → Pending) (machine : Bool) :
    (x.mapBlock f).collected machine = x.collected machine := by
  cases hphase : x.phase <;> simp [Handler.collected, Handler.mapBlock, Phase.mapBlock, hphase]

@[simp] theorem handles_mapBlock (x : Handler) (f : Pending → Pending) :
    (x.mapBlock f).handles = x.handles := by
  cases hphase : x.phase <;> simp [Handler.handles, Handler.mapBlock, Phase.mapBlock, hphase]

theorem mapBlock_eq_failed {phase : Phase} {f : Pending → Pending} : phase.mapBlock f = .failed ↔ phase = .failed := by
  cases phase <;> simp [Phase.mapBlock]

/-- what is owed, in terms of the calls under way -/
theorem owed_mapBlock (x : Handler) (f : Pending → Pending) (t : ℕ) (y : Task) (e : EventName) :
    (x.mapBlock f).owed t y e + x.block.countP (Pending.awaits t e) =
      x.owed t y e + (x.block.map f).countP (Pending.awaits t e) := by
  cases hphase : x.phase <;> simp [Handler.owed, Handler.block, Handler.mapBlock, Phase.mapBlock, hphase, Handler.wanted]
  omega

/-- what happens to the calls to one task -/
structure Only (t : ℕ) (f : Pending → Pending) : Prop where
  task : ∀ p, (f p).task = p.task
  event : ∀ p, (f p).event = p.event
  other : ∀ p, p.task ≠ t → f p = p

theorem only_settle (t : ℕ) (stage : Stage) : Only t (Pending.settle t stage) where
  task p := by
    unfold Pending.settle
    split_ifs <;> rfl
  event p := by
    unfold Pending.settle
    split_ifs <;> rfl
  other p hp := if_neg fun h => hp h.1

theorem only_send (t : ℕ) (stage : Stage) : Only t (Pending.send t stage) where
  task p := by
    unfold Pending.send
    split_ifs <;> rfl
  event p := by
    unfold Pending.send
    split_ifs <;> rfl
  other p hp := if_neg fun h => hp h.1

variable {f : Pending → Pending}

theorem Only.map_task (hf : Only t f) (block : List Pending) : (block.map f).map (·.task) = block.map (·.task) := by
  rw [List.map_map]
  exact List.map_congr_left fun p _ => hf.task p

theorem Only.awaits (hf : Only t f) {t' : ℕ} (ht : t' ≠ t) (e : EventName) (block : List Pending) :
    (block.map f).countP (Pending.awaits t' e) = block.countP (Pending.awaits t' e) := by
  rw [List.countP_map]
  refine List.countP_congr fun p _ => ?_
  by_cases hp : p.task = t
  · simp [Pending.awaits, hf.task, hp, ht.symm]
  · rw [Function.comp, hf.other p hp]

/-- the calls to the other tasks are as they were -/
theorem Owes.other (ho : Owes h t x y) {t' : ℕ} (hf : Only t' f) (ht : t ≠ t') :
    Owes h t (x.mapBlock f) y := by
  have howed : ∀ e, (x.mapBlock f).owed t y e = x.owed t y e := by
    intro e
    have heq := owed_mapBlock x f t y e
    rw [hf.awaits ht] at heq
    omega
  refine ⟨fun e => ?_, fun hc e => ?_, fun hne hc ht hr hl e => ?_, fun c hc hh => ?_⟩
  · rw [howed]
    exact ho.le e
  · rw [collected_mapBlock] at hc
    rw [howed]
    exact ho.early hc e
  · rw [collected_mapBlock] at hc
    rw [howed]
    exact ho.eq (fun hfail => hne (mapBlock_eq_failed.2 hfail)) hc ht hr hl e
  · obtain ⟨p, hp, hpt, hpe, hsent⟩ := ho.link c hc hh
    rw [block_mapBlock]
    exact ⟨p, List.mem_map.mpr ⟨p, hp, hf.other p (hpt ▸ ht)⟩, hpt, hpe, hsent⟩

/-- a call to a task that has ended -/
theorem Owes.dead (ho : Owes h t x y) (hf : Only t f) (hsettles : ∀ p, p.settled = true → (f p).settled = true)
    (hdead : y.live = false) (hnone : y.inflight = []) : Owes h t (x.mapBlock f) y := by
  have howed : ∀ e, (x.mapBlock f).owed t y e ≤ x.owed t y e := by
    intro e
    have heq := owed_mapBlock x f t y e
    have hle : (x.block.map f).countP (Pending.awaits t e) ≤ x.block.countP (Pending.awaits t e) := by
      rw [List.countP_map]
      refine List.countP_mono_left fun p _ hp => ?_
      simp only [Function.comp, Pending.awaits, hf.task, hf.event, Bool.and_eq_true, Bool.not_eq_true'] at hp ⊢
      exact ⟨hp.1, Bool.eq_false_iff.mpr fun hset => Bool.false_ne_true (hp.2.symm.trans (hsettles p hset))⟩
    omega
  refine ⟨fun e => ?_, fun hc e => ?_, fun _ _ _ _ hl => ?_, fun c hc _ => ?_⟩
  · exact Nat.le_trans (Nat.add_le_add_left (howed e) _) (ho.le e)
  · rw [collected_mapBlock] at hc
    have hz := ho.early hc e
    have hle := howed e
    omega
  · exact absurd (hdead.symm.trans hl) Bool.false_ne_true
  · rw [hnone] at hc
    exact absurd hc List.not_mem_nil

/-- of calls to different tasks, one is to a task -/
theorem countP_awaits {block : List Pending} (hnodup : (block.map (·.task)).Nodup) {p : Pending} (hp : p ∈ block)
    (e : EventName) : block.countP (Pending.awaits p.task e) = if p.awaits p.task e then 1 else 0 := by
  induction block with
  | nil => exact absurd hp List.not_mem_nil
  | cons q block ih =>
    rw [List.map_cons, List.nodup_cons] at hnodup
    rw [List.countP_cons]
    rcases List.mem_cons.mp hp with rfl | hp
    · have hnone : block.countP (Pending.awaits p.task e) = 0 := by
        refine List.countP_eq_zero.mpr fun q hq => ?_
        have hne : q.task ≠ p.task := fun heq => hnodup.1 (heq ▸ List.mem_map_of_mem hq)
        simp [Pending.awaits, hne]
      rw [hnone, Nat.zero_add]
    · have hne : q.task ≠ p.task := fun heq => hnodup.1 (heq ▸ List.mem_map_of_mem hp)
      rw [ih hnodup.2 hp, if_neg (by simp [Pending.awaits, hne] : ¬ q.awaits p.task e = true), Nat.add_zero]

/-- a task is changed, and what becomes of the calls of one handler to it -/
theorem Inv.both (hi : Inv s) (hf : Only t f) {g : Task → Task}
    (hthis : Owes h t ((s.handler h).mapBlock f) (g (s.task t)))
    (hothers : ∀ h', h' ≠ h → Owes h' t (s.handler h') (g (s.task t))) (hsound : (g (s.task t)).Sound)
    (hran : ∀ c ∈ (g (s.task t)).ran, c ∈ (s.task t).ran ∨ c.handler = h) (ht : t < s.tasks)
    (hphase : (s.handler h).phase ≠ .failed) :
    Inv ((s.onTask t g).onHandler h (.mapBlock f)) where
  pairs h' t' := by
    simp only [System.onHandler, System.onTask, Function.update_apply]
    split_ifs with hh ht' ht'
    · rw [hh, ht']
      exact hthis
    · rw [hh]
      exact (hi.pairs h t').other hf ht'
    · rw [ht']
      exact hothers h' hh
    · exact hi.pairs h' t'
  sound t' := by
    simp only [System.onHandler, System.onTask, Function.update_apply]
    split_ifs
    · exact hsound
    · exact hi.sound t'
  distinct h' := by
    simp only [System.onHandler, System.onTask, Function.update_apply]
    split_ifs
    · rw [block_mapBlock, hf.map_task]
      exact hi.distinct h
    · exact hi.distinct h'
  tasks t' ht' := by
    have hne : t' ≠ t := fun heq => absurd ht (Nat.not_lt.mpr (heq ▸ ht'))
    simp only [System.onHandler, System.onTask, Function.update_apply, if_neg hne]
    exact hi.tasks t' ht'
  since h' := by
    simp only [System.onHandler, System.onTask, Function.update_apply]
    split_ifs
    · exact hi.since h
    · exact hi.since h'
  known h' := by
    simp only [System.onHandler, System.onTask, Function.update_apply]
    split_ifs
    · rw [handles_mapBlock]
      exact hi.known h
    · exact hi.known h'
  idle h' hh' := by
    have hne : h' ≠ h := fun heq => hphase (hi.idle h (heq ▸ hh'))
    simp only [System.onHandler, System.onTask, Function.update_apply, if_neg hne]
    exact hi.idle h' hh'
  fresh h' hh' t' := by
    simp only [System.onHandler, System.onTask, Function.update_apply]
    split_ifs
    · intro c hc
      rcases hran c hc with hc | hc
      · exact hi.fresh h' hh' t c hc
      · rw [hc]
        exact fun heq => hphase (hi.idle h (heq ▸ hh'))
    · exact hi.fresh h' hh' t'

/-- a call is sent -/
theorem Inv.push (hi : Inv s) {p : Pending} (hp : p ∈ (s.handler h).block) (hunsent : p.stage = .unsent)
    (hlive : (s.task p.task).live = true) :
    Inv ((s.onTask p.task fun y => { y with queue := y.queue ++ [⟨h, p.event⟩] }).onHandler h
      (.mapBlock (.send p.task .sent))) := by
  have ho := hi.pairs h p.task
  -- it is the only call of the handler to the task, and is not with it
  have hnone : ∀ c ∈ (s.task p.task).inflight, c.handler ≠ h := by
    intro c hc hh
    obtain ⟨q, hq, hqt, _, hsent⟩ := ho.link c hc hh
    have hqp : q = p := List.inj_on_of_nodup_map (hi.distinct h) hq hp hqt
    rw [hqp, hunsent] at hsent
    cases hsent
  have hphase : (s.handler h).phase ≠ .failed := by
    intro hfailed
    rw [Handler.block, hfailed] at hp
    exact absurd hp List.not_mem_nil
  have ht : p.task < s.tasks := by
    refine Nat.lt_of_not_le fun ht => ?_
    rw [hi.tasks _ ht] at hlive
    cases hlive
  have hinflight : ({ s.task p.task with queue := (s.task p.task).queue ++ [⟨h, p.event⟩] } : Task).inflight =
      (s.task p.task).inflight ++ [⟨h, p.event⟩] := by
    simp [Task.inflight]
  have howed : ∀ e, ((s.handler h).mapBlock (.send p.task .sent)).owed p.task (s.task p.task) e =
      (s.handler h).owed p.task (s.task p.task) e := by
    intro e
    have heq := owed_mapBlock (s.handler h) (.send p.task .sent) p.task (s.task p.task) e
    have hcount : ((s.handler h).block.map (Pending.send p.task .sent)).countP (Pending.awaits p.task e) =
        (s.handler h).block.countP (Pending.awaits p.task e) := by
      rw [List.countP_map]
      refine List.countP_congr fun q _ => ?_
      simp only [Function.comp, Pending.send]
      split_ifs with hq
      · simp [Pending.awaits, Pending.settled, hq.2]
      · rfl
    omega
  refine hi.both (only_send p.task .sent) ?_ (fun h' hh' => ?_) ⟨?_, ?_⟩ (fun c hc => .inl hc) ht hphase
  · refine ⟨fun e => ?_, fun hc e => ?_, fun _ hc hs hr hl e => ?_, fun c hc hh => ?_⟩
    · exact (howed e).symm ▸ ho.le e
    · rw [collected_mapBlock] at hc
      exact (howed e).symm ▸ ho.early hc e
    · rw [collected_mapBlock] at hc
      exact (howed e).symm ▸ ho.eq hphase hc hs hr hl e
    · rw [hinflight] at hc
      rcases List.mem_append.mp hc with hc | hc
      · exact absurd hh (hnone c hc)
      · obtain rfl := List.mem_singleton.mp hc
        rw [block_mapBlock]
        refine ⟨{ p with stage := .sent }, List.mem_map.mpr ⟨p, hp, if_pos ⟨rfl, hunsent⟩⟩, rfl, rfl, rfl⟩
  · have ho' := hi.pairs h' p.task
    refine ⟨ho'.le, ho'.early, ho'.eq, fun c hc hh => ?_⟩
    rw [hinflight] at hc
    rcases List.mem_append.mp hc with hc | hc
    · exact ho'.link c hc hh
    · obtain rfl := List.mem_singleton.mp hc
      exact absurd hh.symm hh'
  · rw [hinflight, List.map_append, List.map_singleton]
    refine List.Nodup.append (hi.sound p.task).single (List.nodup_singleton _) ?_
    rw [List.disjoint_singleton]
    intro hmem
    obtain ⟨c, hc, hh⟩ := List.mem_map.mp hmem
    exact hnone c hc hh
  · intro hl
    exact absurd (hlive.symm.trans hl) (by decide)

/-- a task has run a call, and replies -/
theorem Inv.complete (hi : Inv s) {call : Call} (hrunning : (s.task t).running = some call) :
    Inv ((s.onTask t fun y => { y with running := none, ran := y.ran ++ [call] }).onHandler call.handler
      (.mapBlock (.settle t .replied))) := by
  have hinflight : (s.task t).inflight = call :: (s.task t).queue := by simp [Task.inflight, hrunning]
  have hcall : call ∈ (s.task t).inflight := by simp [hinflight]
  have ho := hi.pairs call.handler t
  obtain ⟨p, hp, hpt, hpe, hsent⟩ := ho.link call hcall rfl
  have hsingle := (hi.sound t).single
  rw [hinflight, List.map_cons, List.nodup_cons] at hsingle
  have hqueue : ∀ c ∈ (s.task t).queue, c.handler ≠ call.handler :=
    fun c hc hh => hsingle.1 (hh ▸ List.mem_map_of_mem hc)
  have hphase : (s.handler call.handler).phase ≠ .failed := by
    intro hfailed
    rw [Handler.block, hfailed] at hp
    exact absurd hp List.not_mem_nil
  -- what is owed goes over into what has been run
  have hmoves : ∀ e, ((s.task t).ran ++ [call]).count ⟨call.handler, e⟩ +
      ((s.handler call.handler).mapBlock (.settle t .replied)).owed t (s.task t) e =
        (s.task t).ran.count ⟨call.handler, e⟩ + (s.handler call.handler).owed t (s.task t) e := by
    intro e
    have heq := owed_mapBlock (s.handler call.handler) (.settle t .replied) t (s.task t) e
    have hbefore := countP_awaits (hi.distinct call.handler) hp e
    have hafter : ((s.handler call.handler).block.map (Pending.settle t .replied)).countP (Pending.awaits t e) = 0 := by
      have hmem : Pending.settle t .replied p ∈ (s.handler call.handler).block.map (Pending.settle t .replied) :=
        List.mem_map_of_mem hp
      have hnodup := hi.distinct call.handler
      rw [← (only_settle t .replied).map_task] at hnodup
      have hcount := countP_awaits hnodup hmem e
      rw [Pending.settle, if_pos ⟨hpt, hsent⟩] at hcount
      simpa [Pending.awaits, Pending.settled, hpt] using hcount
    rw [hpt] at hbefore
    rw [List.count_append, List.count_singleton]
    have hwas : (if p.awaits t e then 1 else 0) = if call == (⟨call.handler, e⟩ : Call) then 1 else 0 := by
      have hiff : p.awaits t e = (call == (⟨call.handler, e⟩ : Call)) := by
        rw [Bool.eq_iff_iff, beq_iff_eq]
        simp [Pending.awaits, Pending.settled, hpt, hpe, hsent, Call.ext_iff]
      rw [hiff]
    omega
  refine hi.both (only_settle t .replied) ?_ (fun h hh => ?_) ⟨?_, ?_⟩ ?_ (hi.of_inflight hcall).1 hphase
  · refine ⟨fun e => ?_, fun hc e => ?_, fun _ hc hs hr hl e => ?_, fun c hc hh => ?_⟩
    · exact Nat.le_trans (Nat.le_of_eq (hmoves e)) (ho.le e)
    · rw [collected_mapBlock] at hc
      have hz := ho.early hc e
      have hsum := hmoves e
      exact Nat.add_eq_zero_iff.mp (hsum.trans (by omega))
    · rw [collected_mapBlock] at hc
      exact (hmoves e).trans (ho.eq hphase hc hs hr hl e)
    · exact absurd hh (hqueue c hc)
  · have ho' := hi.pairs h t
    have hran : ∀ e, ((s.task t).ran ++ [call]).count ⟨h, e⟩ = (s.task t).ran.count ⟨h, e⟩ := by
      intro e
      have hne : call ≠ ⟨h, e⟩ := fun heq => hh (congrArg Call.handler heq).symm
      rw [List.count_append, List.count_singleton, if_neg (by simpa using hne), Nat.add_zero]
    refine ⟨fun e => ?_, fun hc e => ?_, fun hne hc hs hr hl e => ?_, fun c hc hh => ?_⟩
    · exact (hran e).symm ▸ ho'.le e
    · exact (hran e).symm ▸ ho'.early hc e
    · exact (hran e).symm ▸ ho'.eq hne hc hs hr hl e
    · exact ho'.link c (by rw [hinflight]; exact List.mem_cons_of_mem _ hc) hh
  · exact hsingle.2
  · intro hl
    have hnil := (hi.sound t).ended hl
    rw [hinflight] at hnil
    cases hnil
  · intro c hc
    rcases List.mem_append.mp hc with hc | hc
    · exact .inl hc
    · exact .inr (by rw [List.mem_singleton.mp hc])

/-- a call to a task that has ended is lost -/
theorem Inv.sendLost (hi : Inv s) (hdead : (s.task t).live = false) (hphase : (s.handler h).phase ≠ .failed) :
    Inv (s.onHandler h (.mapBlock (.send t .lost))) := by
  have hf := only_send t .lost
  refine hi.onHandler (fun t' => ?_) ?_ rfl ?_ hphase
  · by_cases ht : t' = t
    · subst ht
      refine (hi.pairs h t').dead hf (fun p hp => ?_) hdead ((hi.sound t').ended hdead)
      unfold Pending.send
      split_ifs with hp'
      · rfl
      · exact hp
    · exact (hi.pairs h t').other hf ht
  · rw [block_mapBlock, hf.map_task]
    exact hi.distinct h
  · rw [handles_mapBlock]
    exact hi.known h

/-- a task ends, and what was with it is lost -/
theorem Inv.ends (hi : Inv s) (t : ℕ) :
    Inv { s with task := Function.update s.task t { s.task t with live := false, queue := [], running := none },
                 handler := fun h => (s.handler h).mapBlock (.settle t .lost) } where
  pairs h t' := by
    simp only [Function.update_apply]
    split_ifs with ht
    · subst ht
      have ho := hi.pairs h t'
      refine Owes.dead ⟨ho.le, ho.early, fun _ _ _ _ hl => (by cases hl), fun c hc => absurd hc List.not_mem_nil⟩
        (only_settle t' .lost) ?_ rfl rfl
      intro p hp
      unfold Pending.settle
      split_ifs
      · rfl
      · exact hp
    · exact (hi.pairs h t').other (only_settle t .lost) ht
  sound t' := by
    simp only [Function.update_apply]
    split_ifs
    · exact ⟨List.nodup_nil, fun _ => rfl⟩
    · exact hi.sound t'
  distinct h := by
    rw [block_mapBlock, (only_settle t .lost).map_task]
    exact hi.distinct h
  tasks t' ht' := by
    simp only [Function.update_apply]
    split_ifs with ht
    · subst ht
      rw [hi.tasks t' ht']
      rfl
    · exact hi.tasks t' ht'
  since := hi.since
  known h := by
    rw [handles_mapBlock]
    exact hi.known h
  idle h hh := mapBlock_eq_failed.2 (hi.idle h hh)
  fresh h hh t' := by
    simp only [Function.update_apply]
    split_ifs
    · exact hi.fresh h hh t
    · exact hi.fresh h hh t'

/-! ## New ones -/

theorem Inv.spawn (hi : Inv s) (triggers : List EventName) (machine : Bool) :
    Inv { s with task := Function.update s.task s.tasks ⟨triggers, machine, true, true, [], none, []⟩,
                 tasks := s.tasks + 1 } where
  pairs h t := by
    simp only [Function.update_apply]
    split_ifs with ht
    · subst ht
      have ho := hi.pairs h s.tasks
      -- nobody has its handle
      have howed : ∀ e, (s.handler h).owed s.tasks ⟨triggers, machine, true, true, [], none, []⟩ e = 0 := by
        intro e
        have hle := ho.le e
        rw [hi.tasks _ (Nat.le_refl _)] at hle
        have hnone : (s.handler h).wanted .none e = 0 := if_neg List.not_mem_nil
        rw [hnone] at hle
        have hold : (s.handler h).owed s.tasks .none e = 0 := by omega
        have hknown := hi.known h
        cases hphase : (s.handler h).phase with
        | collectingMachines handles =>
          have hcount : handles.count s.tasks = 0 := by
            refine List.count_eq_zero.mpr fun hmem => ?_
            exact absurd (hknown s.tasks (by rw [Handler.handles, hphase]; exact hmem)) (Nat.lt_irrefl _)
          simp [Handler.owed, hphase, hcount]
        | calling block rest last => simpa [Handler.owed, hphase] using hold
        | _ => simp [Handler.owed, hphase]
      refine ⟨fun e => ?_, fun _ e => ⟨rfl, howed e⟩, fun _ _ hs => ?_, fun c hc => absurd hc List.not_mem_nil⟩
      · rw [howed e]
        exact Nat.zero_le _
      · exact absurd hs (Nat.not_lt.mpr (hi.since h))
    · exact hi.pairs h t
  sound t := by
    simp only [Function.update_apply]
    split_ifs
    · exact ⟨List.nodup_nil, fun _ => rfl⟩
    · exact hi.sound t
  distinct := hi.distinct
  tasks t ht := by
    have ht : s.tasks < t := ht
    simp only [Function.update_apply]
    rw [if_neg (Nat.ne_of_gt ht)]
    exact hi.tasks t (Nat.le_of_lt ht)
  since h := Nat.le_succ_of_le (hi.since h)
  known h t ht := Nat.lt_succ_of_lt (hi.known h t ht)
  idle := hi.idle
  fresh h hh t := by
    simp only [Function.update_apply]
    split_ifs
    · exact fun c hc => absurd hc List.not_mem_nil
    · exact hi.fresh h hh t

theorem Inv.begins (hi : Inv s) (request : Request) :
    Inv { s with handler := Function.update s.handler s.handlers ⟨request, s.tasks, .announcing request.events⟩,
                 handlers := s.handlers + 1 } where
  pairs h t := by
    simp only [Function.update_apply]
    split_ifs with hh
    · subst hh
      have hnone : ∀ c ∈ (s.task t).inflight, c.handler ≠ s.handlers :=
        (hi.pairs s.handlers t).none_inflight (by simp [Handler.block, hi.idle _ (Nat.le_refl _)])
      have hran : ∀ e, (s.task t).ran.count ⟨s.handlers, e⟩ = 0 := fun e =>
        List.count_eq_zero.mpr fun hmem => hi.fresh _ (Nat.le_refl _) t _ hmem rfl
      refine ⟨fun e => ?_, fun _ e => ⟨hran e, rfl⟩, fun _ hc => (by cases hc), fun c hc hh => absurd hh (hnone c hc)⟩
      rw [hran]
      exact Nat.zero_le _
    · exact hi.pairs h t
  sound := hi.sound
  distinct h := by
    simp only [Function.update_apply]
    split_ifs
    · exact List.nodup_nil
    · exact hi.distinct h
  tasks := hi.tasks
  since h := by
    simp only [Function.update_apply]
    split_ifs
    · exact Nat.le_refl _
    · exact hi.since h
  known h := by
    simp only [Function.update_apply]
    split_ifs
    · exact fun t ht => absurd ht List.not_mem_nil
    · exact hi.known h
  idle h hh := by
    have hh : s.handlers < h := hh
    simp only [Function.update_apply]
    rw [if_neg (Nat.ne_of_gt hh)]
    exact hi.idle h (Nat.le_of_lt hh)
  fresh h hh := hi.fresh h (Nat.le_of_succ_le hh)

/-! ## Runs -/

theorem Inv.listens (hi : Inv s) (sent : List EventName) (listeners : List (Core.Listener EventName)) :
    Inv { s with sent, listeners } :=
  ⟨hi.pairs, hi.sound, hi.distinct, hi.tasks, hi.since, hi.known, hi.idle, hi.fresh⟩

theorem Inv.send (hi : Inv s) (h t : ℕ) : Inv (s.send h t) := by
  unfold System.send
  cases hphase : (s.handler h).phase with
  | calling block rest last =>
    dsimp only
    have hblock : (s.handler h).block = block := by rw [Handler.block, hphase]
    cases hfind : block.find? fun p => p.task = t && p.stage = .unsent with
    | none => exact hi
    | some p =>
      have hp := List.find?_some hfind
      simp only [Bool.and_eq_true, decide_eq_true_eq] at hp
      obtain ⟨rfl, hunsent⟩ := hp
      dsimp only
      split_ifs with hlive hroom
      · exact hi.push (hblock ▸ List.mem_of_find?_eq_some hfind) hunsent hlive
      · exact hi
      · exact hi.sendLost (Bool.of_not_eq_true hlive) (by simp [hphase])
  | _ => exact hi

theorem inv_step (capacity : ℕ) (o : Op) (hi : Inv s) : Inv (s.step capacity o) := by
  cases o <;> simp only [System.step]
  case spawn triggers machine => exact hi.spawn triggers machine
  case unregister t => exact hi.unregister t
  case subscribe => exact hi.listens _ _
  case receive i => exact hi.listens _ _
  case begins request => exact hi.begins request
  case announce h =>
    split
    next event rest hphase => exact (hi.announce hphase).listens _ _
    next => exact hi
  case collect h order =>
    split
    next hphase =>
      split_ifs with horder
      · split
        next hstep => exact hi.collectStep hphase horder hstep
        next => exact hi.collectInvoke hphase horder
      · exact hi
    next => exact hi
  case collectMachines h =>
    split
    next handles hphase => exact hi.collectMachines hphase
    next => exact hi
  case send h t => exact hi.send h t
  case proceed h => exact hi.proceed h
  case serve h =>
    split
    next hphase => exact hi.serve hphase
    next => exact hi
  case fails h =>
    split
    next hphase => exact hi.fails (by simp [Handler.block, hphase]) (by simp [hphase])
    next hphase => exact hi.fails (by simp [Handler.block, hphase]) (by simp [hphase])
    next hphase => exact hi.fails (by simp [Handler.block, hphase]) (by simp [hphase])
    next => exact hi
  case take t =>
    split
    next call queue hqueue hrunning => exact hi.take hqueue hrunning
    next => exact hi
  case complete t =>
    split
    next call hrunning => exact hi.complete hrunning
    next => exact hi
  case ends t => exact hi.ends t

theorem inv_run (capacity : ℕ) (ops : List Op) : Inv (System.run capacity ops) :=
  Core.run_keeps (fun _ o hi => inv_step capacity o hi) inv_start ops

/-- **A `Step` and an `Invoke` wait.** Once one has answered, every behavior and machine that was there when it began
and has its handle still has run its events, unless it has ended: each as often as it is asked for, if the behavior is
triggered by it. -/
theorem barrier (capacity : ℕ) (ops : List Op) (h t : ℕ)
    (hanswered : ((System.run capacity ops).handler h).phase = .answered)
    (hthere : t < ((System.run capacity ops).handler h).since)
    (hregistered : ((System.run capacity ops).task t).registered = true)
    (hlive : ((System.run capacity ops).task t).live = true) (e : EventName) :
    ((System.run capacity ops).task t).ran.count ⟨h, e⟩ =
      ((System.run capacity ops).handler h).wanted ((System.run capacity ops).task t) e := by
  have ho := (inv_run capacity ops).pairs h t
  have hcollected :
      ((System.run capacity ops).handler h).collected ((System.run capacity ops).task t).machine = true := by
    simp [Handler.collected, hanswered]
  have hall := ho.eq (by simp [hanswered]) hcollected hthere hregistered hlive e
  simpa [Handler.owed, hanswered] using hall

/-- **Nothing is run too often.** Whatever becomes of a handler, no behavior runs an event for it more often than it is
asked for, nor one that does not trigger it. -/
theorem never_more_often (capacity : ℕ) (ops : List Op) (h t : ℕ) (e : EventName) :
    ((System.run capacity ops).task t).ran.count ⟨h, e⟩ ≤
      ((System.run capacity ops).handler h).wanted ((System.run capacity ops).task t) e :=
  Nat.le_trans (Nat.le_add_right _ _) (((inv_run capacity ops).pairs h t).le e)

/-- **Nothing runs in between.** While all handlers have come to an end, no behavior is running an event, nor has one to
run. -/
theorem quiet_between (capacity : ℕ) (ops : List Op)
    (hended : ∀ h, ((System.run capacity ops).handler h).phase = .answered ∨
      ((System.run capacity ops).handler h).phase = .failed) (t : ℕ) :
    ((System.run capacity ops).task t).running = none ∧ ((System.run capacity ops).task t).queue = [] := by
  have hnone : ((System.run capacity ops).task t).inflight = [] := by
    refine List.eq_nil_iff_forall_not_mem.mpr fun c hc => ?_
    obtain ⟨p, hp, _⟩ := ((inv_run capacity ops).pairs c.handler t).link c hc rfl
    rcases hended c.handler with hphase | hphase <;> simp [Handler.block, hphase] at hp
  obtain ⟨hrunning, hqueue⟩ := List.append_eq_nil_iff.mp hnone
  exact ⟨by simpa using hrunning, hqueue⟩

/-- two behaviors and a machine: a `Step`, with an `Invoke` in between that calls one of them twice; a third behavior
ends with the `Step` in its queue -/
def pair : List Op :=
  [.spawn ["step", "bounce"] false, .spawn ["step"] false, .spawn ["step"] true, .spawn ["step"] false,
    .begins .step, .announce 0, .collect 0 [1, 0, 3],
    .send 0 0, .take 0, .begins (.invoke ["bounce", "bounce"]), .announce 1, .announce 1, .collect 1 [0, 1, 3],
    .collectMachines 1, .proceed 1, .send 1 0, .send 0 1, .send 0 3, .take 1, .complete 1, .complete 0, .ends 3, .proceed 0,
    .collectMachines 0, .proceed 0, .send 0 2, .take 2, .take 0, .complete 0, .proceed 1, .send 1 0, .take 0,
    .complete 2, .proceed 0, .serve 0, .complete 0, .proceed 1, .serve 1]

theorem barrier_pair : ((System.run 32 pair).task 0).ran.count ⟨1, "bounce"⟩ =
    ((System.run 32 pair).handler 1).wanted ((System.run 32 pair).task 0) "bounce" :=
  barrier 32 pair 1 0 (by decide +kernel) (by decide +kernel) (by decide +kernel) (by decide +kernel) "bounce"

/-- the machine has run, and what has come to an end is done -/
example : ((System.run 32 pair).task 0).ran = [⟨0, "step"⟩, ⟨1, "bounce"⟩, ⟨1, "bounce"⟩] ∧
    ((System.run 32 pair).task 2).ran = [⟨0, "step"⟩] ∧ ((System.run 32 pair).task 3).ran = [] := by decide +kernel

theorem quiet_between_pair :
    ((System.run 32 pair).task 0).running = none ∧ ((System.run 32 pair).task 0).queue = [] := by
  have hhandlers : (System.run 32 pair).handlers = 2 := by decide +kernel
  refine quiet_between 32 pair (fun h => ?_) 0
  match h with
  | 0 => exact .inl (by decide +kernel)
  | 1 => exact .inl (by decide +kernel)
  | h + 2 => exact .inr ((inv_run 32 pair).idle (h + 2) (hhandlers ▸ Nat.le_add_left 2 h))

end BigWorlds.Behavior
