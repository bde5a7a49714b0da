/-
A global `Invoke` is handled once at each worker, in every order of its signals.

A signal that comes to a worker which has handled the call must not get through there. The table of seen calls sees to
that for a call that came on the local stream with delivery `Limited(1)` (or 0); the default is `Unlimited`.

- `invoke_once`: while that holds in every step, no worker triggers more than `Invoke` triggers there once, only
  boundedly many steps can be taken, and when none is left all signals are answered and every worker that connections
  lead to has triggered its events;
- `limited_careful`: it holds in every step of a call with delivery `Limited(1)` that comes on the local stream, where
  all links are local;
- `unlimited_twice`: in a triangle of peers a call with the default delivery triggers an event twice.
-/
import BigWorlds.Broadcast.Invariant
import Mathlib.Algebra.Order.BigOperators.Group.Finset
import Mathlib.Algebra.Ring.Nat

namespace BigWorlds.Broadcast

open BigWorlds.Core (Exec run run_inv along_of_inv Along)

/-! ## How many steps are left -/

/-- steps of the leader's handler and of its signals, its arrival with them -/
def leaderSteps (c : Cluster) : ℕ := 2 + 2 * c.leader.workers.keys.card

/-- steps of a handler and of its signals, the handlers that they start apart -/
def Activity.steps (c : Cluster) : Activity → ℕ
  | .toWorker _ _ _ => 1
  | .toLeader _ => leaderSteps c
  | .worker x => 2 * x.peers.card + (if x.leader then 1 + leaderSteps c else 0) + x.rest.length + 1
  | .leader x => 2 * x.workers.card + 1

def Task.steps (c : Cluster) (t : Task) : ℕ := if t.done then 0 else t.activity.steps c

/-- steps of the handler that the call can still start at worker `w` -/
def beginSteps (c : Cluster) (handles : WorkerId → Option (List BehaviorHandle)) (events : List EventName)
    (w : WorkerId) : ℕ :=
  match c.stateOf w with
  | some st => (Activity.worker (begin handles events w st (.new (.fixed 0) 0 .unknown))).steps c
  | none => 0

def unhandled (c : Cluster) (s : System) : Finset WorkerId := c.workers.keys.filter fun w => ¬ s.Handles w

/-- an upper bound of the steps that are left -/
def stepsLeft (c : Cluster) (handles : WorkerId → Option (List BehaviorHandle)) (events : List EventName)
    (s : System) : ℕ :=
  ∑ w ∈ unhandled c s, beginSteps c handles events w + (s.tasks.map (Task.steps c)).sum

section
variable {c : Cluster} {handles : WorkerId → Option (List BehaviorHandle)} {events : List EventName} {i : Uuid}
  {entry : WorkerId} {s s' : System} {h : ℕ} {t t' : Task}

theorem sum_map_set {α : Type*} (f : α → ℕ) {l : List α} {k : ℕ} {a : α} (b : α) (hk : l[k]? = some a) :
    ((l.set k b).map f).sum + f a = (l.map f).sum + f b := by
  induction l generalizing k with
  | nil => exact absurd hk (by simp)
  | cons x l ih =>
    cases k with
    | zero =>
      obtain rfl : x = a := by simpa using hk
      simp only [List.set_cons_zero, List.map_cons, List.sum_cons]
      omega
    | succ k =>
      have hrest := ih (k := k) (by simpa using hk)
      simp only [List.set_cons_succ, List.map_cons, List.sum_cons]
      omega

theorem steps_set (ht : s.tasks[h]? = some t) (t' : Task) :
    ((s.set h t').tasks.map (Task.steps c)).sum + t.steps c = (s.tasks.map (Task.steps c)).sum + t'.steps c :=
  sum_map_set (Task.steps c) t' ht

theorem steps_push (s : System) (t : Task) :
    ((s.push t).tasks.map (Task.steps c)).sum = (s.tasks.map (Task.steps c)).sum + t.steps c := by
  simp [System.push]

theorem steps_told (t : Task) (h : ℕ) (answer : Option Context) : (t.told h answer).steps c = t.steps c := by
  obtain ⟨parent, activity, waiting, done⟩ := t
  cases activity <;> cases answer <;> rfl

/-- no handler goes away -/
theorem unhandled_subset (hh : ∀ w, s.Handles w → s'.Handles w) : unhandled c s' ⊆ unhandled c s := by
  intro w hw
  obtain ⟨hk, hn⟩ := Finset.mem_filter.mp hw
  exact Finset.mem_filter.mpr ⟨hk, fun hs => hn (hh w hs)⟩

theorem stepsLeft_lt (hh : ∀ w, s.Handles w → s'.Handles w)
    (hlt : (s'.tasks.map (Task.steps c)).sum < (s.tasks.map (Task.steps c)).sum) :
    stepsLeft c handles events s' < stepsLeft c handles events s := by
  have hle := Finset.sum_le_sum_of_subset (f := beginSteps c handles events) (unhandled_subset (c := c) hh)
  unfold stepsLeft
  omega

theorem steps_active (hd : t.done = false) : t.steps c = t.activity.steps c := by
  rw [Task.steps, hd]
  rfl

/-- a handler goes on, and sends a signal or not -/
theorem ask_lt (ht : s.tasks[h]? = some t) (hd : t.done = false) {a : Activity} (signal : Option Activity)
    (hhandler : a.handlerAt = t.activity.handlerAt)
    (hlt : a.steps c + (signal.map (Activity.steps c)).getD 0 < t.activity.steps c) :
    stepsLeft c handles events (s.ask h { t with activity := a } signal) < stepsLeft c handles events s := by
  cases signal with
  | none =>
    have hsum := steps_set (c := c) ht { t with activity := a }
    rw [steps_active hd, steps_active (t := { t with activity := a }) hd] at hsum
    refine stepsLeft_lt (fun w => handles_set ht fun w hw => hhandler.trans hw) ?_
    simp only [Option.map_none, Option.getD_none] at hlt
    unfold System.ask
    dsimp only at hsum ⊢
    omega
  | some b =>
    have ht' : (s.push ⟨some h, b, ∅, false⟩).tasks[h]? = some t := System.mem_push.2 (Or.inl ht)
    have hsum := steps_set (c := c) ht' { t with activity := a, waiting := insert s.tasks.length t.waiting }
    rw [steps_push, steps_active hd, steps_active (t := { t with activity := a, waiting := _ }) hd,
      steps_active (t := ⟨some h, b, ∅, false⟩) rfl] at hsum
    have hhandles : ∀ w, s.Handles w → (s.ask h { t with activity := a } (some b)).Handles w := fun w hw =>
      handles_set ht' (fun w hw => hhandler.trans hw) ((Grows.push (c := c) s _).handles w hw)
    refine stepsLeft_lt hhandles ?_
    simp only [Option.map_some, Option.getD_some] at hlt
    unfold System.ask
    dsimp only at hsum ⊢
    omega

theorem steps_tell (s : System) (parent : Option ℕ) (h : ℕ) (answer : Option Context) :
    ((s.tell parent h answer).tasks.map (Task.steps c)).sum = (s.tasks.map (Task.steps c)).sum := by
  unfold System.tell
  split
  · split
    · rename_i u hu
      have hsum := steps_set (c := c) hu (u.told h answer)
      rw [steps_told] at hsum
      omega
    · rfl
  · rfl

theorem answer_lt (hi : Inv c handles events i entry s) (hentry : entry ∈ c.workers.keys)
    (ht : s.tasks[h]? = some t) (hd : t.done = false) {answer : Option Context}
    (hgood : ∀ ctx, answer = some ctx → Good c i s ctx) (hpos : 0 < t.activity.steps c) :
    stepsLeft c handles events (s.answer h t answer) < stepsLeft c handles events s := by
  obtain ⟨_, g, ht', _⟩ := hi.tell hentry ht hgood rfl
  have hsum := steps_set (c := c) ht' { t with done := true }
  rw [steps_tell, steps_active hd] at hsum
  have hzero : ({ t with done := true } : Task).steps c = 0 := rfl
  have hkeep : ∀ w, t.activity.handlerAt = some w → ({ t with done := true } : Task).activity.handlerAt = some w :=
    fun _ hv => hv
  have hhandles : ∀ w, s.Handles w → (s.answer h t answer).Handles w := fun w hw =>
    handles_set ht' hkeep (g.handles w hw)
  refine stepsLeft_lt hhandles ?_
  unfold System.answer
  omega

/-- a handler starts at a worker that had none -/
theorem begin_lt (ht : s.tasks[h]? = some t) (hd : t.done = false) {w : WorkerId} {source : Inbox.Stream}
    {ctx ctx' : Context} (ha : t.activity = .toWorker w source ctx) {st : WorkerState} (hst : c.stateOf w = some st)
    (hnot : ¬ s.Handles w) :
    stepsLeft c handles events (s.set h { t with activity := .worker (begin handles events w st ctx') }) <
      stepsLeft c handles events s := by
  let t' : Task := { t with activity := .worker (begin handles events w st ctx') }
  have hkey : w ∈ c.workers.keys := by
    obtain ⟨node, hnode, _⟩ := Option.map_eq_some_iff.mp hst
    exact FnvHashMap.mem_keys hnode
  have hmem : w ∈ unhandled c s := Finset.mem_filter.mpr ⟨hkey, hnot⟩
  have hsub : unhandled c (s.set h t') ⊆ (unhandled c s).erase w := by
    intro v hv
    obtain ⟨hk, hn⟩ := Finset.mem_filter.mp hv
    have hvw : v ≠ w := by
      rintro rfl
      exact hn ⟨t', mem_set_self ht t', rfl⟩
    refine Finset.mem_erase.mpr ⟨hvw, Finset.mem_filter.mpr ⟨hk, fun hs => hn (handles_set ht (fun u hu => ?_) hs)⟩⟩
    exact absurd hu (by simp [ha, Activity.handlerAt])
  have hrest := Finset.sum_le_sum_of_subset (f := beginSteps c handles events) hsub
  have hall := Finset.add_sum_erase (unhandled c s) (beginSteps c handles events) hmem
  have hbegin : beginSteps c handles events w = t'.steps c := by
    rw [beginSteps, hst, steps_active (t := t') hd]
    rfl
  have hsum := steps_set (c := c) ht t'
  rw [steps_active hd, ha] at hsum
  have hone : (Activity.toWorker w source ctx).steps c = 1 := rfl
  change stepsLeft c handles events (s.set h t') < stepsLeft c handles events s
  unfold stepsLeft
  omega

theorem receive_lt (hi : Inv c handles events i entry s) (hentry : entry ∈ c.workers.keys)
    (ht : s.tasks[h]? = some t) (hd : t.done = false) {w : WorkerId} {source : Inbox.Stream} {ctx : Context}
    (ha : t.activity = .toWorker w source ctx) (now : UInt64)
    (hc : s.Handles w → Inbox.passes (s.seen w) source ctx.id ctx.delivery = false) :
    stepsLeft c handles events (s.receive c handles events h t w source ctx now) < stepsLeft c handles events s := by
  have hrejected : stepsLeft c handles events (s.answer h t none) < stepsLeft c handles events s :=
    answer_lt hi hentry ht hd (by simp) (by rw [ha]; exact Nat.one_pos)
  unfold System.receive
  cases hst : c.stateOf w with
  | none => exact hrejected
  | some st =>
    simp only
    cases ho : (Inbox.receive w now (s.seen w) source ctx).2 with
    | handled ctx' =>
      have hyes : Inbox.passes (s.seen w) source ctx.id ctx.delivery = true := by
        rw [← Inbox.receive_isHandled w now, ho]
        rfl
      exact begin_lt ht hd ha hst fun hw => absurd ((hc hw).symm.trans hyes) (by simp)
    | rejected e => exact hrejected
    | dropped => exact hrejected

/-- a loop that comes to a worker has one less to come to -/
theorem send_lt {peers : Finset WorkerId} {p : WorkerId} (hp : p ∈ peers) (signal : Option Activity)
    (hsignal : ∀ b, signal = some b → b.steps c = 1) :
    2 * (peers.erase p).card + (signal.map (Activity.steps c)).getD 0 < 2 * peers.card := by
  have hcard := Finset.card_erase_of_mem hp
  have hpos := Finset.card_pos.mpr ⟨p, hp⟩
  cases signal with
  | none =>
    simp only [Option.map_none, Option.getD_none]
    omega
  | some b =>
    have hb := hsignal b rfl
    simp only [Option.map_some, Option.getD_some]
    omega

/-- **Every step is one less.** -/
theorem next_lt (hi : Inv c handles events i entry s) (hentry : entry ∈ c.workers.keys) {o : Op} (hc : Careful s o)
    (hn : next c handles events s o = some s') : stepsLeft c handles events s' < stepsLeft c handles events s := by
  obtain ⟨h, t, hact, hh⟩ := next_cases hn
  obtain ⟨ht, hd⟩ := System.active_eq_some.1 hact
  cases hh with
  | arrive now ha => exact receive_lt hi hentry ht hd ha now (by simpa [Careful, hact, ha] using hc)
  | arriveLeader now ha =>
    refine ask_lt ht hd none (by rw [ha]; rfl) ?_
    rw [ha]
    simp only [Activity.steps, leaderSteps, Option.map_none, Option.getD_none]
    omega
  | @send x p ha hp =>
    have hsend := send_lt (c := c) hp (x.toPeer c p) fun b hb => by
      obtain ⟨source, rfl⟩ := toPeer_some hb
      rfl
    refine ask_lt ht hd _ (by rw [ha]; rfl) ?_
    rw [ha]
    simp only [Activity.steps]
    omega
  | @sendWorker x p ha hp =>
    have hsend := send_lt (c := c) hp (x.toWorker c p) fun b hb => by
      obtain ⟨source, exec, rfl⟩ := toWorker_some hb
      rfl
    refine ask_lt ht hd _ (by rw [ha]; rfl) ?_
    rw [ha]
    simp only [Activity.steps]
    omega
  | @sendLeader x ha hl =>
    have hsend : ((x.toLeader c).map (Activity.steps c)).getD 0 ≤ leaderSteps c := by
      cases hb : x.toLeader c with
      | none => exact Nat.zero_le _
      | some b =>
        obtain rfl := toLeader_some hb
        exact Nat.le_refl _
    refine ask_lt ht hd _ (by rw [ha]; rfl) ?_
    rw [ha]
    simp only [Activity.steps, hl, if_true, Bool.false_eq_true, if_false]
    omega
  | trigger ha hrest =>
    refine ask_lt ht hd none (by rw [ha]; rfl) ?_
    rw [ha]
    simp only [Activity.steps, hrest, List.length_cons, Option.map_none, Option.getD_none]
    omega
  | finish ha hj hrest => exact answer_lt hi hentry ht hd (good_merged hi ht ha) (by rw [ha]; exact Nat.succ_pos _)
  | finishLeader ha hw => exact answer_lt hi hentry ht hd (good_leader hi ht ha) (by rw [ha]; exact Nat.succ_pos _)

/-! ## Final states -/

/-- a state in which nothing can happen has answered everything -/
theorem done_of_stuck (hi : Inv c handles events i entry s) (hs : Stuck c handles events s) :
    ∀ t ∈ s.tasks, t.done = true := by
  -- a task that has not answered waits for one with a greater number
  have hlater : ∀ {h t}, s.active h = some t → ∃ j u, h < j ∧ s.active j = some u := by
    intro h t hact
    obtain ⟨ht, hd⟩ := System.active_eq_some.1 hact
    have hwaits : t.waiting ≠ ∅ → ∃ j u, h < j ∧ s.active j = some u := by
      intro hne
      obtain ⟨j, hj⟩ := Finset.nonempty_iff_ne_empty.mpr hne
      obtain ⟨hlt, u, hu, hud, _⟩ := hi.waits ht j hj
      exact ⟨j, u, hlt, System.active_eq_some.2 ⟨hu, hud⟩⟩
    by_contra hno
    have hempty : t.waiting = ∅ := by
      by_contra hne
      exact hno (hwaits hne)
    cases ha : t.activity with
    | toWorker w source ctx => exact absurd (hs (.arrive h 0)) (by simp [next, hact, ha])
    | toLeader ctx => exact absurd (hs (.arrive h 0)) (by simp [next, hact, ha])
    | worker x =>
      have hpeers : x.peers = ∅ := by
        by_contra hne
        obtain ⟨p, hp⟩ := Finset.nonempty_iff_ne_empty.mpr hne
        exact absurd (hs (.send h p)) (by simp [next, hact, ha, hp])
      have hleader : x.leader = false := by
        by_contra hl
        exact absurd (hs (.sendLeader h)) (by simp [next, hact, ha, hpeers, hl])
      have hjoined : x.Joined t := ⟨hpeers, hleader, hempty⟩
      cases hrest : x.rest with
      | nil => exact absurd (hs (.finish h)) (by simp [next, hact, ha, hjoined, hrest])
      | cons e rest => exact absurd (hs (.trigger h)) (by simp [next, hact, ha, hjoined, hrest])
    | leader x =>
      have hworkers : x.workers = ∅ := by
        by_contra hne
        obtain ⟨p, hp⟩ := Finset.nonempty_iff_ne_empty.mpr hne
        exact absurd (hs (.send h p)) (by simp [next, hact, ha, hp, hempty])
      exact absurd (hs (.finish h)) (by simp [next, hact, ha, hworkers, hempty])
  have hnone : ∀ n h, s.tasks.length - h = n → s.active h = none := by
    intro n
    induction n using Nat.strong_induction_on with
    | _ n ih =>
      intro h hn
      by_contra hne
      obtain ⟨t, hact⟩ := Option.ne_none_iff_exists'.mp hne
      obtain ⟨j, u, hlt, hu⟩ := hlater hact
      have hj := (List.getElem?_eq_some_iff.mp (System.active_eq_some.1 hu).1).1
      exact absurd hu (by rw [ih (s.tasks.length - j) (by omega) j rfl]; simp)
  intro t ht
  obtain ⟨h, hh⟩ := List.mem_iff_getElem?.mp ht
  by_contra hd
  have hact : s.active h = some t := System.active_eq_some.2 ⟨hh, by simpa using hd⟩
  exact absurd hact (by rw [hnone _ h rfl]; simp)

theorem flatMap_unique {α β : Type*} (f : α → List β) {l : List α} {k : ℕ} {a : α} (hk : l[k]? = some a)
    (hother : ∀ j b, l[j]? = some b → j ≠ k → f b = []) : l.flatMap f = f a := by
  induction l generalizing k with
  | nil => exact absurd hk (by simp)
  | cons x l ih =>
    rw [List.flatMap_cons]
    cases k with
    | zero =>
      obtain rfl : x = a := by simpa using hk
      have hrest : l.flatMap f = [] := List.flatMap_eq_nil_iff.mpr fun b hb => by
        obtain ⟨j, hj⟩ := List.mem_iff_getElem?.mp hb
        exact hother (j + 1) b (by simpa using hj) (Nat.succ_ne_zero j)
      rw [hrest, List.append_nil]
    | succ k =>
      have hx : f x = [] := hother 0 x rfl (Nat.succ_ne_zero k).symm
      rw [hx, List.nil_append]
      exact ih (by simpa using hk) fun j b hj hjk => hother (j + 1) b (by simpa using hj) (by omega)

theorem triggeredAt_of_ne {a : Activity} {w : WorkerId} (hw : a.handlerAt ≠ some w) : a.triggeredAt w = [] := by
  cases a with
  | worker x => exact if_neg fun he => hw (congrArg some he)
  | _ => rfl

/-- a worker has triggered what its one handler has -/
theorem triggered_eq (hi : Inv c handles events i entry s) (ht : s.tasks[h]? = some t) {x : WorkerHandler}
    (ha : t.activity = .worker x) : s.triggered x.worker = x.triggered := by
  have hw : t.activity.handlerAt = some x.worker := by rw [ha]; rfl
  have hother : ∀ j u, s.tasks[j]? = some u → j ≠ h → u.activity.triggeredAt x.worker = [] := by
    intro j u hu hj
    exact triggeredAt_of_ne fun hw' => hj (hi.unique hu ht hw' hw)
  calc s.triggered x.worker = t.activity.triggeredAt x.worker := flatMap_unique _ ht hother
    _ = x.triggered := by rw [ha]; exact if_pos rfl

theorem exists_handler {w : WorkerId} (hw : s.Handles w) :
    ∃ (h : ℕ) (t : Task) (x : WorkerHandler), s.tasks[h]? = some t ∧ t.activity = .worker x ∧ x.worker = w := by
  obtain ⟨t, ht, hw⟩ := hw
  obtain ⟨h, hh⟩ := List.mem_iff_getElem?.mp ht
  cases ha : t.activity with
  | worker x => exact ⟨h, t, x, hh, ha, Option.some.inj (by rw [ha] at hw; exact hw)⟩
  | _ => exact absurd hw (by simp [ha, Activity.handlerAt])

/-- never more than once -/
theorem triggered_once (hi : Inv c handles events i entry s) (w : WorkerId) :
    s.triggered w <+: effects events (handles w) := by
  by_cases hw : s.Handles w
  · obtain ⟨h, t, x, ht, ha, rfl⟩ := exists_handler hw
    have hsound := (hi.fine t (List.mem_of_getElem? ht)).sound
    rw [ha] at hsound
    rw [triggered_eq hi ht ha]
    exact ⟨x.rest, hsound⟩
  · have hnil : s.triggered w = [] := List.flatMap_eq_nil_iff.mpr fun t ht =>
      triggeredAt_of_ne fun ha => hw ⟨t, ht, ha⟩
    rw [hnil]
    exact List.nil_prefix

/-- when everything is answered, whoever is covered has handled the call -/
theorem handles_of_done (hdone : ∀ t ∈ s.tasks, t.done = true) {w : WorkerId} (hw : s.Covers w) : s.Handles w := by
  rcases hw with hw | ⟨t, ht, hd, _⟩
  · exact hw
  · exact absurd (hd.symm.trans (hdone t ht)) (by simp)

/-- a worker that has handled the call and answered has passed it on to all it had to -/
theorem passed_of_done (hi : Inv c handles events i entry s) (hdone : ∀ t ∈ s.tasks, t.done = true) {w : WorkerId}
    (hw : s.Handles w) : ∃ x : WorkerHandler, x.worker = w ∧ Passed c s (.worker x) ∧ Over (.worker x) := by
  obtain ⟨h, t, x, ht, ha, hx⟩ := exists_handler hw
  have hmem : t ∈ s.tasks := List.mem_of_getElem? ht
  have hpassed := (hi.fine t hmem).passed
  have hover := hi.ended t hmem (hdone t hmem)
  rw [ha] at hpassed hover
  exact ⟨x, hx, hpassed, hover⟩

theorem handles_of_reachable (hi : Inv c handles events i entry s) (hdone : ∀ t ∈ s.tasks, t.done = true)
    {w : WorkerId} (hw : Reachable c entry w) : s.Handles w := by
  induction hw with
  | entry _ => exact handles_of_done hdone hi.entry
  | peer _ hst hl hp ih =>
    obtain ⟨x, rfl, hpassed, hover⟩ := passed_of_done hi hdone ih
    rcases (hpassed _ hst).1 _ hp _ hl with hleft | hcov
    · exact absurd hleft (by rw [hover.1]; exact Finset.notMem_empty _)
    · exact handles_of_done hdone hcov
  | leader _ hst hl hr hk ih =>
    obtain ⟨x, rfl, hpassed, hover⟩ := passed_of_done hi hdone ih
    -- the leader has handled the call
    obtain ⟨u, hu, hul⟩ : s.LeaderHandles := by
      rcases (hpassed _ hst).2 _ hl with hleft | hcov
      · exact absurd (hover.2.1.symm.trans hleft) (by simp)
      · rcases hcov with hcov | ⟨u, hu, hd, _⟩
        · exact hcov
        · exact absurd (hd.symm.trans (hdone u hu)) (by simp)
    have hpassed' := (hi.fine u hu).passed
    have hover' := hi.ended u hu (hdone u hu)
    cases hua : u.activity with
    | leader y =>
      rw [hua] at hpassed' hover'
      have hy : y.workers = ∅ := hover'
      rcases hpassed' _ hk hr with hleft | hcov
      · exact absurd hleft (by rw [hy]; exact Finset.notMem_empty _)
      · exact handles_of_done hdone hcov
    | _ => exact absurd hul (by simp [hua, Activity.isLeader])

/-- a worker that has answered has triggered everything -/
theorem triggered_of_done (hi : Inv c handles events i entry s) (hdone : ∀ t ∈ s.tasks, t.done = true) {w : WorkerId}
    (hw : s.Handles w) : s.triggered w = effects events (handles w) := by
  obtain ⟨h, t, x, ht, ha, rfl⟩ := exists_handler hw
  have hmem : t ∈ s.tasks := List.mem_of_getElem? ht
  have hsound := (hi.fine t hmem).sound
  have hover := hi.ended t hmem (hdone t hmem)
  rw [ha] at hsound hover
  have hsound : x.triggered ++ x.rest = effects events (handles x.worker) := hsound
  rw [triggered_eq hi ht ha, ← hsound, hover.2.2, List.append_nil]

/-! ## Runs -/

theorem inv_start {ctx : Context} (hf : Fresh c entry ctx) (source : Inbox.Stream) :
    Inv c handles events ctx.id entry (start c entry source ctx) := by
  have hcovers : (start c entry source ctx).Covers entry :=
    Or.inr ⟨_, List.mem_cons_self, rfl, source, ctx, rfl⟩
  have honly : ∀ t ∈ (start c entry source ctx).tasks, t = ⟨none, .toWorker entry source ctx, ∅, false⟩ := fun t ht =>
    List.mem_singleton.mp ht
  have honly' : ∀ {h t}, (start c entry source ctx).tasks[h]? = some t →
      h = 0 ∧ t = ⟨none, .toWorker entry source ctx, ∅, false⟩ := by
    intro h t ht
    obtain ⟨hlt, _⟩ := List.getElem?_eq_some_iff.mp ht
    simp only [start, List.length_singleton] at hlt
    exact ⟨by omega, honly t (List.mem_of_getElem? ht)⟩
  refine ⟨fun w hw hs => absurd hs (hf.unseen w hw), hcovers, fun t ht => ?_, fun t ht hd => ?_, fun ht ht' _ _ => ?_,
    fun ht hp => ?_, fun ht j hj => ?_⟩
  · rw [honly t ht]
    refine ⟨fun k hk => ?_, trivial, trivial⟩
    obtain rfl := List.mem_singleton.mp hk
    refine ⟨rfl, fun w hw hn => ?_, fun hn => absurd (hf.leader.symm.trans hn) (by simp)⟩
    rw [hf.workers w hw hn]
    exact hcovers
  · rw [honly t ht] at hd
    exact absurd hd (by simp)
  · rw [(honly' ht).1, (honly' ht').1]
  · rw [(honly' ht).2] at hp
    exact absurd hp (by simp)
  · rw [(honly' ht).2] at hj
    exact absurd hj (Finset.notMem_empty j)

theorem length_le (hentry : entry ∈ c.workers.keys) {ops : List Op} (hi : Inv c handles events i entry s)
    (hc : Along (step c handles events) Careful s ops)
    (hn : Along (step c handles events) (fun s o => next c handles events s o ≠ none) s ops) :
    ops.length ≤ stepsLeft c handles events s := by
  induction ops generalizing s with
  | nil => exact Nat.zero_le _
  | cons o ops ih =>
    obtain ⟨s', hs'⟩ := Option.ne_none_iff_exists'.mp hn.1
    have hstep : step c handles events s o = s' := by rw [step, hs', Option.getD_some]
    have hlt := next_lt hi hentry hc.1 hs'
    have hrest := ih (inv_step hi hentry o hc.1) hc.2 hn.2
    rw [hstep] at hrest
    exact Nat.le_trans (Nat.succ_le_succ hrest) hlt

end

/-- **Exactly once.** In every run in which a signal that comes to a worker which has handled the call does not get
through: no worker triggers more than `Invoke` does there once; a run of steps that are enabled is no longer than
`stepsLeft`; and when no step is left, all signals are answered and every reachable worker has triggered everything. -/
theorem invoke_once (c : Cluster) (handles : WorkerId → Option (List BehaviorHandle)) (events : List EventName)
    (entry : WorkerId) (source : Inbox.Stream) (ctx : Context) (hf : Fresh c entry ctx) (ops : List Op)
    (hc : Along (step c handles events) Careful (start c entry source ctx) ops) :
    let s := run (step c handles events) (start c entry source ctx) ops
    (∀ w, s.triggered w <+: effects events (handles w)) ∧
      (Along (step c handles events) (fun s o => next c handles events s o ≠ none) (start c entry source ctx) ops →
        ops.length ≤ stepsLeft c handles events (start c entry source ctx)) ∧
      (Stuck c handles events s → (∀ t ∈ s.tasks, t.done = true) ∧
        ∀ w, Reachable c entry w → s.triggered w = effects events (handles w)) := by
  intro s
  have hstep : ∀ s o, Inv c handles events ctx.id entry s → Careful s o →
      Inv c handles events ctx.id entry (step c handles events s o) := fun _ o hi hc => inv_step hi hf.mem o hc
  have hinv : Inv c handles events ctx.id entry s := run_inv hstep (inv_start hf source) hc
  refine ⟨triggered_once hinv, length_le hf.mem (inv_start hf source) hc, fun hs => ?_⟩
  have hdone := done_of_stuck hinv hs
  exact ⟨hdone, fun w hw => triggered_of_done hinv hdone (handles_of_reachable hinv hdone hw)⟩

/-! ## A delivery limit -/

/-- workers are linked locally, to each other and to the leader -/
structure LocalLinks (c : Cluster) : Prop where
  peers : ∀ w st p exec, c.stateOf w = some st → st.otherWorkers.lookup p = some (.connected exec) → exec = .local
  leader : ∀ r exec, c.leader.workers.lookup r = some exec → exec = .local

section
variable {c : Cluster} {handles : WorkerId → Option (List BehaviorHandle)} {events : List EventName} {i : Uuid}
  {n : UInt8} {entry : WorkerId} {s s' : System} {h : ℕ} {t t' : Task}

/-- signals of the call come on the local stream, with its delivery -/
def Plain (n : UInt8) (a : Activity) : Prop :=
  (∀ ctx ∈ a.contexts, ctx.delivery = .limited n) ∧ ∀ w source ctx, a = .toWorker w source ctx → source = .localStreams

/-- every worker that has handled the call has it in its table -/
structure Sealed (i : Uuid) (n : UInt8) (s : System) : Prop where
  calls : ∀ w, s.Handles w → (s.seen w).lookup i = some (1, 0)
  plain : ∀ t ∈ s.tasks, Plain n t.activity

theorem Sealed.set (hs : Sealed i n s) (h : ℕ) (hplain : Plain n t'.activity)
    (hold : ∀ w, t'.activity.handlerAt = some w → s.Handles w) : Sealed i n (s.set h t') := by
  refine ⟨fun w ⟨u, hu, hw⟩ => ?_, fun u hu => ?_⟩
  · rcases List.mem_or_eq_of_mem_set hu with hu | rfl
    · exact hs.calls w ⟨u, hu, hw⟩
    · exact hs.calls w (hold w hw)
  · rcases List.mem_or_eq_of_mem_set hu with hu | rfl
    · exact hs.plain u hu
    · exact hplain

theorem Sealed.push (hs : Sealed i n s) {a : Activity} (hplain : Plain n a) (hw : a.handlerAt = none) :
    Sealed i n (s.push ⟨some h, a, ∅, false⟩) := by
  refine ⟨fun w ⟨u, hu, hw'⟩ => ?_, fun u hu => ?_⟩
  · rcases List.mem_append.mp hu with hu | hu
    · exact hs.calls w ⟨u, hu, hw'⟩
    · rw [List.mem_singleton.mp hu] at hw'
      exact absurd (hw.symm.trans hw') (by simp)
  · rcases List.mem_append.mp hu with hu | hu
    · exact hs.plain u hu
    · rw [List.mem_singleton.mp hu]
      exact hplain

theorem Sealed.ask (hs : Sealed i n s) (ht : s.tasks[h]? = some t) {a : Activity} (signal : Option Activity)
    (hplain : Plain n a) (hold : a.handlerAt = t.activity.handlerAt)
    (hsignal : ∀ b, signal = some b → Plain n b ∧ b.handlerAt = none) :
    Sealed i n (s.ask h { t with activity := a } signal) := by
  have hmem : t ∈ s.tasks := List.mem_of_getElem? ht
  cases signal with
  | none => exact hs.set h hplain fun w hw => ⟨t, hmem, hold.symm.trans hw⟩
  | some b =>
    obtain ⟨hb, hnone⟩ := hsignal b rfl
    exact (hs.push hb hnone).set h hplain fun w hw => ⟨t, List.mem_append_left _ hmem, hold.symm.trans hw⟩

theorem Plain.told {u : Task} (hp : Plain n u.activity) (h : ℕ) (answer : Option Context) :
    Plain n (u.told h answer).activity := by
  obtain ⟨parent, activity, waiting, done⟩ := u
  cases answer with
  | none => cases activity <;> exact hp
  | some ctx =>
    cases activity with
    | worker x =>
      refine ⟨fun k hk => ?_, by simp [Task.told]⟩
      rcases List.mem_cons.mp hk with rfl | hk
      · exact hp.1 _ List.mem_cons_self
      · rw [List.mem_singleton.mp hk]
        exact hp.1 x.merged (List.mem_cons_of_mem _ List.mem_cons_self)
    | leader x =>
      refine ⟨fun k hk => ?_, by simp [Task.told]⟩
      rw [List.mem_singleton.mp hk]
      exact hp.1 x.ctx List.mem_cons_self
    | _ => exact hp

theorem Sealed.answer (hi : Inv c handles events i entry s) (hentry : entry ∈ c.workers.keys) (hs : Sealed i n s)
    (ht : s.tasks[h]? = some t) {answer : Option Context} (hgood : ∀ ctx, answer = some ctx → Good c i s ctx) :
    Sealed i n (s.answer h t answer) := by
  have hmem : t ∈ s.tasks := List.mem_of_getElem? ht
  have htell : Sealed i n (s.tell t.parent h answer) := by
    unfold System.tell
    split
    · split
      · rename_i u hu
        have hu' : u ∈ s.tasks := List.mem_of_getElem? hu
        refine hs.set _ ((hs.plain u hu').told h answer) fun w hw => ⟨u, hu', ?_⟩
        rwa [told_handlerAt] at hw
      · exact hs
    · exact hs
  obtain ⟨_, g, _, _⟩ := hi.tell hentry ht hgood rfl
  exact htell.set h (hs.plain t hmem) fun w hw => g.handles w ⟨t, hmem, hw⟩

/-- the table rejects the call at every worker that has handled it -/
theorem careful_of_sealed (hi : Inv c handles events i entry s) (hs : Sealed i n s) (hn : n ≤ 1) (o : Op) :
    Careful s o := by
  cases o with
  | arrive h now =>
    simp only [Careful]
    split
    · rename_i w source ctx heq
      intro hw
      obtain ⟨t, hact, ha⟩ := Option.map_eq_some_iff.mp heq
      have hmem : t ∈ s.tasks := List.mem_of_getElem? (System.active_eq_some.1 hact).1
      have hid : ctx.id = i := ((hi.fine t hmem).good ctx (by simp [ha, Activity.contexts])).id
      have hplain := hs.plain t hmem
      obtain rfl : source = .localStreams := hplain.2 w source ctx ha
      have hdelivery : ctx.delivery = .limited n := hplain.1 ctx (by simp [ha, Activity.contexts])
      have hentry : (s.seen w).lookup ctx.id = some (1, 0) := hid ▸ hs.calls w hw
      unfold Inbox.passes
      rw [hentry, hdelivery]
      simpa using hn
    · trivial
  | _ => trivial

theorem sealed_receive (hi : Inv c handles events i entry s) (hentry : entry ∈ c.workers.keys) (hs : Sealed i n s)
    (ht : s.tasks[h]? = some t) {w : WorkerId} {source : Inbox.Stream} {ctx : Context}
    (ha : t.activity = .toWorker w source ctx) (now : UInt64)
    (hc : s.Handles w → Inbox.passes (s.seen w) source ctx.id ctx.delivery = false) :
    Sealed i n (s.receive c handles events h t w source ctx now) := by
  have hmem : t ∈ s.tasks := List.mem_of_getElem? ht
  have hid : ctx.id = i := ((hi.fine t hmem).good ctx (by simp [ha, Activity.contexts])).id
  have hplain := hs.plain t hmem
  obtain rfl : source = .localStreams := hplain.2 w source ctx ha
  have hanswer : Sealed i n (s.answer h t none) := Sealed.answer hi hentry hs ht (by simp)
  have hseen : (s.answer h t none).seen = s.seen := by
    unfold System.answer System.tell
    repeat' split
    all_goals rfl
  unfold System.receive
  cases hst : c.stateOf w with
  | none => exact hanswer
  | some st =>
    have hclose : (Inbox.receive w now (s.seen w) .localStreams ctx).2.isHandled = false →
        Sealed i n { s.answer h t none with
          seen := Function.update s.seen w (Inbox.receive w now (s.seen w) .localStreams ctx).1 } := by
      intro hno
      have hsame : Function.update s.seen w (Inbox.receive w now (s.seen w) .localStreams ctx).1 = s.seen := by
        rw [Inbox.receive_present w now .localStreams (Inbox.mem_of_not_handled hno)]
        exact Function.update_eq_self w s.seen
      rw [hsame, ← hseen]
      exact hanswer
    simp only
    cases ho : (Inbox.receive w now (s.seen w) .localStreams ctx).2 with
    | handled ctx' =>
      have hyes : Inbox.passes (s.seen w) .localStreams ctx.id ctx.delivery = true := by
        rw [← Inbox.receive_isHandled w now, ho]
        rfl
      have hnot : ¬ s.Handles w := fun hw => absurd ((hc hw).symm.trans hyes) (by simp)
      have hkey : w ∈ c.workers.keys := by
        obtain ⟨node, hnode, _⟩ := Option.map_eq_some_iff.mp hst
        exact FnvHashMap.mem_keys hnode
      have hfresh : (s.seen w).lookup ctx.id = none :=
        Finmap.lookup_eq_none.mpr fun hin => hnot (hi.seen w hkey (hid ▸ hin))
      have hentered := (Inbox.receive_fresh w now .localStreams hfresh).2
      rw [if_pos rfl, hid] at hentered
      have hctx : ctx'.delivery = ctx.delivery := by
        rw [Inbox.receive_handled ho]
        rfl
      refine ⟨fun v hcall => ?_, fun u hu => ?_⟩
      · obtain ⟨u, hu, hv⟩ := hcall
        by_cases hvw : v = w
        · subst hvw
          simpa only [Function.update_self] using hentered
        · have hold : (s.seen v).lookup i = some (1, 0) := by
            rcases List.mem_or_eq_of_mem_set hu with hu | rfl
            · exact hs.calls v ⟨u, hu, hv⟩
            · exact absurd (Option.some.inj hv).symm hvw
          simpa only [Function.update_of_ne hvw] using hold
      · rcases List.mem_or_eq_of_mem_set hu with hu | rfl
        · exact hs.plain u hu
        · refine ⟨fun k hk => ?_, by simp⟩
          obtain rfl : k = ctx' := by simpa [Activity.contexts, begin] using hk
          exact hctx.trans (hplain.1 ctx (by simp [ha, Activity.contexts]))
    | rejected e => exact hclose (by rw [ho]; rfl)
    | dropped => exact hclose (by rw [ho]; rfl)

theorem sealed_step (hl : LocalLinks c) (hi : Inv c handles events i entry s) (hentry : entry ∈ c.workers.keys)
    (hs : Sealed i n s) (o : Op) (hc : Careful s o) : Sealed i n (step c handles events s o) := by
  unfold step
  cases hn : next c handles events s o with
  | none => exact hs
  | some s' =>
    obtain ⟨h, t, hact, hh⟩ := next_cases hn
    have ht := (System.active_eq_some.1 hact).1
    have hplain := hs.plain t (List.mem_of_getElem? ht)
    rw [Option.getD_some]
    cases hh with
    | arrive now ha => exact sealed_receive hi hentry hs ht ha now (by simpa [Careful, hact, ha] using hc)
    | @arriveLeader ctx now ha =>
      rw [ha] at hplain
      refine hs.set h ⟨fun k hk => ?_, by simp⟩ fun w hw => absurd hw (by simp [Activity.handlerAt])
      rw [List.mem_singleton.mp hk]
      exact hplain.1 ctx List.mem_cons_self
    | @send x p ha _ =>
      rw [ha] at hplain
      refine hs.ask ht _ ⟨hplain.1, by simp⟩ (by rw [ha]; rfl) fun b hb => ?_
      obtain ⟨exec, hexec, rfl⟩ := Option.map_eq_some_iff.mp hb
      obtain ⟨st, hst, hto⟩ := Option.bind_eq_some_iff.mp hexec
      have hlocal : exec = .local := by
        unfold Forwarding.broadcastTo at hto
        split_ifs at hto
        split at hto
        · rename_i hlook
          exact Option.some.inj hto ▸ hl.peers _ _ _ _ hst hlook
        · cases hto
      subst hlocal
      refine ⟨⟨fun k hk => ?_, fun w source ctx heq => (Activity.toWorker.inj heq).2.1.symm⟩, rfl⟩
      rw [List.mem_singleton.mp hk]
      exact hplain.1 _ List.mem_cons_self
    | @sendWorker x p ha _ =>
      rw [ha] at hplain
      refine hs.ask ht _ ⟨hplain.1, by simp⟩ (by rw [ha]; rfl) fun b hb => ?_
      obtain ⟨exec, hto, rfl⟩ := Option.map_eq_some_iff.mp hb
      have hlocal : exec = .local := by
        unfold Forwarding.workerBroadcastTo at hto
        split_ifs at hto
        exact hl.leader _ _ hto
      subst hlocal
      refine ⟨⟨fun k hk => ?_, fun w source ctx heq => (Activity.toWorker.inj heq).2.1.symm⟩, rfl⟩
      rw [List.mem_singleton.mp hk]
      exact hplain.1 _ List.mem_cons_self
    | sendLeader ha _ =>
      rw [ha] at hplain
      refine hs.ask ht _ ⟨hplain.1, by simp⟩ (by rw [ha]; rfl) fun b hb => ?_
      obtain rfl := toLeader_some hb
      refine ⟨⟨fun k hk => ?_, by simp⟩, rfl⟩
      rw [List.mem_singleton.mp hk]
      exact hplain.1 _ List.mem_cons_self
    | trigger ha _ =>
      rw [ha] at hplain
      exact hs.ask ht none ⟨hplain.1, by simp⟩ (by rw [ha]; rfl) (by simp)
    | finish ha _ _ => exact Sealed.answer hi hentry hs ht (good_merged hi ht ha)
    | finishLeader ha _ => exact Sealed.answer hi hentry hs ht (good_leader hi ht ha)

end

/-- **A call with delivery `Limited(1)` that comes on the local stream.** Every step of every run is careful, where all
links are local. -/
theorem limited_careful {c : Cluster} (hl : LocalLinks c) (handles : WorkerId → Option (List BehaviorHandle))
    (events : List EventName) {entry : WorkerId} {ctx : Context} (hf : Fresh c entry ctx) {n : UInt8}
    (hd : ctx.delivery = .limited n) (hn : n ≤ 1) (ops : List Op) :
    Along (step c handles events) Careful (start c entry .localStreams ctx) ops := by
  have hstart : Sealed ctx.id n (start c entry .localStreams ctx) := by
    refine ⟨fun w ⟨t, ht, hw⟩ => ?_, fun t ht => ?_⟩
    · rw [List.mem_singleton.mp ht] at hw
      exact absurd hw (by simp [Activity.handlerAt])
    · rw [List.mem_singleton.mp ht]
      refine ⟨fun k hk => ?_, fun w source k heq => (Activity.toWorker.inj heq).2.1.symm⟩
      rw [List.mem_singleton.mp hk]
      exact hd
  have hcareful : ∀ s o, (Inv c handles events ctx.id entry s ∧ Sealed ctx.id n s) → Careful s o := fun _ o hs =>
    careful_of_sealed hs.1 hs.2 hn o
  exact along_of_inv hcareful
    (fun _ o hs hc => ⟨inv_step hs.1 hf.mem o hc, sealed_step hl hs.1 hf.mem hs.2 o hc⟩)
    ⟨inv_start hf .localStreams, hstart⟩ ops

/-! ## A triangle -/

/-- local connections to these peers -/
def connected (l : List WorkerId) : FnvHashMap WorkerId WorkerSituation :=
  l.foldr (fun p m => m.insert p (.connected .local)) ∅

/-- three workers, each the peer of the others -/
def triangle : Cluster where
  leader := ⟨none, ∅⟩
  workers := Finmap.insert 0 (Forwarding.node (connected [1, 2])) (Finmap.insert 1 (Forwarding.node (connected [0, 2]))
    (Finmap.singleton 2 (Forwarding.node (connected [0, 1]))))

/-- what a client calls with, by default -/
def clientCall : Context := .new (.v4 7) 0 (.participant (.client 9))

theorem fresh_clientCall (delivery : Delivery) : Fresh triangle 0 { clientCall with delivery } :=
  ⟨by decide, fun w hw => (by decide : ∀ w ∈ triangle.workers.keys, clientCall.id ∉ seenOf triangle w) w hw,
    fun w hw => (by decide : ∀ w ∈ triangle.workers.keys, clientCall.wentThroughWorker w = true → w = 0) w hw, rfl⟩

theorem connected_local {l : List WorkerId} {p : WorkerId} {exec : Exec}
    (h : (connected l).lookup p = some (.connected exec)) : exec = .local := by
  induction l with
  | nil => exact absurd h (by simp [connected])
  | cons q l ih =>
    rw [connected, List.foldr_cons] at h
    by_cases hpq : p = q
    · subst hpq
      rw [Finmap.lookup_insert] at h
      exact (WorkerSituation.connected.inj (Option.some.inj h)).symm
    · rw [Finmap.lookup_insert_of_ne _ hpq] at h
      exact ih h

theorem localLinks_triangle : LocalLinks triangle := by
  refine ⟨fun w st p exec hst hl => ?_, fun r exec hl => absurd hl (by simp [triangle])⟩
  obtain ⟨l, hl'⟩ : ∃ l, st.otherWorkers = connected l := by
    obtain ⟨node, hnode, rfl⟩ := Option.map_eq_some_iff.mp hst
    unfold triangle at hnode
    by_cases h0 : w = 0
    · subst h0
      rw [Finmap.lookup_insert] at hnode
      exact ⟨[1, 2], by rw [← Option.some.inj hnode]; rfl⟩
    · rw [Finmap.lookup_insert_of_ne _ h0] at hnode
      by_cases h1 : w = 1
      · subst h1
        rw [Finmap.lookup_insert] at hnode
        exact ⟨[0, 2], by rw [← Option.some.inj hnode]; rfl⟩
      · rw [Finmap.lookup_insert_of_ne _ h1] at hnode
        by_cases h2 : w = 2
        · subst h2
          rw [Finmap.lookup_singleton_eq] at hnode
          exact ⟨[0, 1], by rw [← Option.some.inj hnode]; rfl⟩
        · have hmem : w ∈ (Finmap.singleton 2 (Forwarding.node (connected [0, 1])) : FnvHashMap WorkerId WorkerNode) :=
            Finmap.mem_iff.mpr ⟨node, hnode⟩
          exact absurd ((Finmap.mem_singleton w 2 _).mp hmem) h2
  exact connected_local (hl' ▸ hl)

/-- workers 1 and 2 get the call from worker 0, and worker 2 gets it from worker 1 -/
def crossing : List Op :=
  [.arrive 0 0, .send 0 1, .send 0 2, .arrive 1 0, .send 1 2, .arrive 2 0, .arrive 3 0]

/-- the call that comes to worker 2 again is rejected -/
theorem limited_crossing :
    let ctx : Context := { clientCall with delivery := .limited 1 }
    let s := run (step triangle (fun _ => some []) ["e"]) (start triangle 0 .localStreams ctx) crossing
    (∀ w, s.triggered w <+: effects ["e"] (some [])) ∧
      (Along (step triangle (fun _ => some []) ["e"]) (fun s o => next triangle (fun _ => some []) ["e"] s o ≠ none)
          (start triangle 0 .localStreams ctx) crossing →
        crossing.length ≤ stepsLeft triangle (fun _ => some []) ["e"] (start triangle 0 .localStreams ctx)) ∧
      (Stuck triangle (fun _ => some []) ["e"] s → (∀ t ∈ s.tasks, t.done = true) ∧
        ∀ w, Reachable triangle 0 w → s.triggered w = effects ["e"] (some [])) :=
  invoke_once triangle (fun _ => some []) ["e"] 0 .localStreams { clientCall with delivery := .limited 1 }
    (fresh_clientCall (.limited 1)) crossing
    (limited_careful localLinks_triangle (fun _ => some []) ["e"] (fresh_clientCall (.limited 1)) rfl (by decide)
      crossing)

/-- the handlers at worker 2 go on, one after the other -/
def bothTrigger : List Op :=
  [.send 3 0, .send 3 1, .sendLeader 3, .trigger 3, .finish 3, .send 2 0, .send 2 1, .arrive 4 0, .send 4 0, .send 4 2,
    .sendLeader 4, .trigger 4, .finish 4, .sendLeader 2, .trigger 2]

/-- with the default delivery worker 2 triggers the event twice -/
theorem unlimited_twice : ¬ ∀ (c : Cluster) (handles : WorkerId → Option (List BehaviorHandle))
    (events : List EventName) (entry : WorkerId) (ctx : Context), LocalLinks c → Fresh c entry ctx →
      ∀ (ops : List Op) (w : WorkerId),
        (run (step c handles events) (start c entry .localStreams ctx) ops).triggered w <+:
          effects events (handles w) := by
  intro h
  have htwice := h triangle (fun _ => some []) ["e"] 0 clientCall localLinks_triangle (fresh_clientCall .unlimited)
    (crossing ++ bothTrigger) 2
  exact absurd htwice (by decide)

end BigWorlds.Broadcast
