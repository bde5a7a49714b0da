/-
The leader and each worker keep a clock of their own: `process_step` increments the leader's, `Step` sets the worker's
watch to the value it read plus one, `Initialize` sets it to 0, and `LoadSnapshot` sets the leader's.

The invariant: for a registered worker, the leader's clock plus the steps under way is the worker's clock plus the
steps that have yet to set it.

- `clocks_agree`: the condition on the steps of a run (`Kept`) under which the clocks agree whenever no request is in
  flight, for any number of steps at once and any interleaving;
- `concurrent_steps_disagree`: two steps at once, both read the worker's watch before either sets it.
-/
import BigWorlds.LockStep.System

namespace BigWorlds.LockStep.ClockAgreement

open BigWorlds.Core (run Along)

/-! ## What is to hold -/

/-- no step, initialization or snapshot is in flight -/
def Quiet (s : System) : Prop :=
  (∀ call ∈ s.steps, call.isDone = true) ∧ (∀ call ∈ s.inits, call = .done) ∧ ∀ call ∈ s.loads, call = .done

instance (s : System) : Decidable (Quiet s) := inferInstanceAs (Decidable (_ ∧ _ ∧ _))

/-- the clock of the leader is that of every registered worker -/
def Agree (s : System) : Prop := ∀ w ∈ s.workers, s.clock = (s.worker w).clockWatch

instance (s : System) : Decidable (Agree s) := inferInstanceAs (Decidable (∀ w ∈ s.workers, _))

/-! ## The condition -/

/-- steps that have their list of workers -/
def running (s : System) : ℕ := s.steps.countP (·.isRunning)

/-- the step has yet to set the clock of the worker -/
def owes (w : WorkerId) : StepCall → Bool
  | .polling workers _ => decide (w ∈ workers)
  | .stepping workers pos => decide (w ∈ workers) && (pos w).beforeSet
  | _ => false

def owed (s : System) (w : WorkerId) : ℕ := s.steps.countP (owes w)

/-- the worker's clock is where the leader's will be, once the steps under way are through -/
def InStep (s : System) (w : WorkerId) : Prop := s.clock + running s = (s.worker w).clockWatch + owed s w

instance (s : System) (w : WorkerId) : Decidable (InStep s w) := inferInstanceAs (Decidable (_ = _))

/-- the worker sets its clock from the value it still has, and does not fail before -/
def SetsRead (clockWatch : ℕ) : StepOp → StepAt → Prop
  | .next, .read currentClock => currentClock = clockWatch
  | .fail, p => p.beforeSet = false
  | _, _ => True

instance (clockWatch : ℕ) (o : StepOp) (p : StepAt) : Decidable (SetsRead clockWatch o p) :=
  match o, p with
  | .next, .read currentClock => inferInstanceAs (Decidable (currentClock = clockWatch))
  | .fail, p => inferInstanceAs (Decidable (p.beforeSet = false))
  | .next, .sent | .next, .clockSet _ | .next, .telling _ _ | .next, .triggering | .next, .joining _ _
  | .next, .machines _ _ | .next, .subscriptions _ | .next, .ended _ | .tell _ _, _ | .join _ _, _ => .isTrue trivial

/-- **The condition on a step.** At a registered worker, a `Step` sets the clock watch only while it has the value that
was read, and does not fail before it; `Initialize` resets only a clock that is 0. A worker is registered only in step
with the leader, and `LoadSnapshot` sets the clock the leader has, unless no worker is registered. -/
def Kept (s : System) : Op → Prop
  | .addWorker w accepted => accepted = true → InStep s w
  | .worker k w o => w ∈ s.workers → ∀ p ∈ s.posAt k w, SetsRead (s.worker w).clockWatch o p
  | .initWorker _ w reset _ => reset = true → w ∈ s.workers → (s.worker w).clockWatch = 0
  | .loadNext j _ => ∀ clock ∈ s.clockToSet j, s.workers = ∅ ∨ clock = s.clock
  | _ => True

instance (s : System) (o : Op) : Decidable (Kept s o) := by
  cases o <;> unfold Kept <;> infer_instance

/-! ## The invariant -/

def Inv (s : System) : Prop := ∀ w ∈ s.workers, InStep s w

theorem agree_of_quiet {s : System} (h : Inv s) (hq : Quiet s) : Agree s := by
  intro w hw
  have hdone : ∀ p : StepCall → Bool, p .done = false → s.steps.countP p = 0 := by
    intro p hp
    refine List.countP_eq_zero.mpr fun call hcall => ?_
    have hd := hq.1 call hcall
    cases call with
    | done => exact Bool.eq_false_iff.mp hp
    | _ => cases hd
  have hin : s.clock + running s = (s.worker w).clockWatch + owed s w := h w hw
  have hrun : running s = 0 := hdone _ rfl
  have howed : owed s w = 0 := hdone _ rfl
  omega

/-- what the invariant reads -/
theorem Inv.congr {s s' : System} (h : Inv s) (hc : s'.clock = s.clock) (hw : s'.workers ⊆ s.workers)
    (hwatch : ∀ w ∈ s'.workers, (s'.worker w).clockWatch = (s.worker w).clockWatch) (hr : running s' = running s)
    (ho : ∀ w ∈ s'.workers, owed s' w = owed s w) : Inv s' := by
  intro w hmem
  have hin : s.clock + running s = (s.worker w).clockWatch + owed s w := h w (hw hmem)
  unfold InStep
  rw [hc, hr, ho w hmem, hwatch w hmem]
  exact hin

theorem Inv.onWorker {s : System} (h : Inv s) (w : WorkerId) {f : Worker → Worker}
    (hf : w ∈ s.workers → (f (s.worker w)).clockWatch = (s.worker w).clockWatch) : Inv (s.onWorker w f) := by
  refine h.congr rfl subset_rfl (fun v hv => ?_) rfl fun _ _ => rfl
  by_cases hvw : v = w
  · subst hvw
    simp only [System.onWorker, Function.update_self]
    exact hf hv
  · simp only [System.onWorker, Function.update_of_ne hvw]

/-- one call of `process_step` moves on -/
theorem counts_setStep {s : System} {k : ℕ} {a : StepCall} (b : StepCall) (h : s.steps[k]? = some a) (w : WorkerId) :
    running (s.setStep k b) + (if a.isRunning then 1 else 0) = running s + (if b.isRunning then 1 else 0) ∧
      owed (s.setStep k b) w + (if owes w a then 1 else 0) = owed s w + if owes w b then 1 else 0 :=
  ⟨Core.countP_set_add b h, Core.countP_set_add b h⟩

/-- a call that moves on without changing what it owes the registered workers -/
theorem Inv.setStep {s : System} (hs : Inv s) {k : ℕ} {a b : StepCall} (h : s.steps[k]? = some a)
    (hr : b.isRunning = a.isRunning) (ho : ∀ w ∈ s.workers, owes w b = owes w a) : Inv (s.setStep k b) :=
  hs.congr rfl subset_rfl (fun _ _ => rfl) (Core.countP_set_same h hr) fun w hw => Core.countP_set_same h (ho w hw)

theorem owes_update {w v : WorkerId} {workers : Finset WorkerId} {pos : WorkerId → StepAt} {p : StepAt}
    (h : v = w → p.beforeSet = (pos w).beforeSet) :
    owes v (.stepping workers (Function.update pos w p)) = owes v (.stepping workers pos) := by
  by_cases hvw : v = w
  · subst hvw
    simp only [owes, Function.update_self, h rfl]
  · simp only [owes, Function.update_of_ne hvw]

theorem beforeSet_after {wk : Worker} {o : StepOp} {p : StepAt} (hset : o = .next → ∀ c, p ≠ .read c)
    (hok : SetsRead wk.clockWatch o p) : (p.after wk o).beforeSet = p.beforeSet := by
  cases o with
  | next =>
    cases p with
    | read currentClock => exact absurd rfl (hset rfl currentClock)
    | telling newClock todo =>
      simp only [StepAt.after, StepAt.next]
      split_ifs <;> rfl
    | joining todo all => cases todo <;> rfl
    | machines todo all => cases todo <;> rfl
    | _ => rfl
  | tell server reached => cases p <;> rfl
  | join i answered => cases p <;> rfl
  | fail =>
    simp only [SetsRead] at hok
    rw [hok]
    cases p with
    | machines todo all => cases todo <;> rfl
    | _ => rfl

/-- the list of workers is taken: one more step under way, owed to every registered worker -/
theorem Inv.getWorkers {s : System} (h : Inv s) {k : ℕ} (hk : s.steps[k]? = some .received) :
    Inv (s.setStep k (.polling s.workers ∅)) := by
  intro w hw
  have hin : s.clock + running s = (s.worker w).clockWatch + owed s w := h w hw
  have hw' : w ∈ s.workers := hw
  obtain ⟨hr, ho⟩ := counts_setStep (.polling s.workers ∅) hk w
  simp only [StepCall.isRunning, owes, hw', decide_true, if_true, Bool.false_eq_true, if_false] at hr ho
  unfold InStep
  simp only [System.setStep] at hr ho ⊢
  omega

/-- the clock watch is set: one step less is owed -/
theorem Inv.setClockWatch {s : System} (h : Inv s) {k : ℕ} {w : WorkerId} {workers : Finset WorkerId}
    {pos : WorkerId → StepAt} {currentClock : ℕ} (hk : s.steps[k]? = some (.stepping workers pos)) (hw : w ∈ workers)
    (hp : pos w = .read currentClock) (hok : w ∈ s.workers → currentClock = (s.worker w).clockWatch) :
    Inv ((s.onWorker w fun wk => { wk with clockWatch := currentClock + 1 }).moved k w workers pos
      (.clockSet (currentClock + 1))) := by
  intro v hv
  have hin : s.clock + running s = (s.worker v).clockWatch + owed s v := h v hv
  obtain ⟨hr, ho⟩ := counts_setStep (.stepping workers (Function.update pos w (.clockSet (currentClock + 1)))) hk v
  simp only [StepCall.isRunning, if_true] at hr
  unfold InStep
  simp only [System.moved, System.setStep, System.onWorker, running, owed] at hr ho hin ⊢
  by_cases hvw : v = w
  · subst hvw
    have hc := hok hv
    simp only [owes, hw, hp, StepAt.beforeSet, Function.update_self, decide_true, Bool.true_and, if_true,
      Bool.false_eq_true, if_false] at ho ⊢
    omega
  · rw [owes_update fun hv => absurd hv hvw] at ho
    simp only [Function.update_of_ne hvw]
    omega

/-- the leader's clock is incremented: one step less is under way -/
theorem Inv.incrementClock {s : System} (h : Inv s) {k : ℕ} {workers : Finset WorkerId} {pos : WorkerId → StepAt}
    (hk : s.steps[k]? = some (.stepping workers pos)) (hended : ∀ w ∈ workers, (pos w).isEnded = true)
    (log : List Round) : Inv { s.setStep k .done with clock := s.clock + 1, log } := by
  intro w hw
  have hin : s.clock + running s = (s.worker w).clockWatch + owed s w := h w hw
  obtain ⟨hr, ho⟩ := counts_setStep .done hk w
  have hzero : owes w (.stepping workers pos) = false := by
    simp only [owes, Bool.and_eq_false_iff, decide_eq_false_iff_not]
    by_cases hm : w ∈ workers
    · refine .inr ?_
      have he := hended w hm
      cases hp : pos w with
      | ended all => rfl
      | _ =>
        rw [hp] at he
        cases he
    · exact .inl hm
  rw [hzero] at ho
  simp only [StepCall.isRunning, owes, if_true, Bool.false_eq_true, if_false] at hr ho
  unfold InStep
  simp only [System.setStep, running, owed] at hr ho hin ⊢
  omega

theorem Inv.effect {s s' : System} {o : Op} (h : Inv s) (hok : Kept s o) (he : s.Effect o s') : Inv s' := by
  cases he with
  | none | client | monitorStart | monitorWake | monitorRefresh | setWorker | initRequest | init | loadSnapshot
  | setModel => exact h
  | monitorTell sv w blocking delivered hphase =>
    cases delivered with
    | false => exact h
    | true => exact h.onWorker (f := fun wk => { wk with blockedWatch := blocking }) w fun _ => rfl
  | insertServer w sv => exact h.onWorker w fun _ => rfl
  | addBehavior w b => exact h.onWorker w fun _ => rfl
  | addMachine w b => exact h.onWorker w fun _ => rfl
  | addWorker w =>
    intro v hv
    rcases Finset.mem_insert.mp hv with rfl | hv
    · exact hok rfl
    · exact h v hv
  | removeWorker w => exact h.congr rfl (Finset.erase_subset _ _) (fun _ _ => rfl) rfl fun _ _ => rfl
  | stepRequest =>
    refine h.congr rfl subset_rfl (fun _ _ => rfl) ?_ fun w _ => ?_
    · simp [running, StepCall.isRunning]
    · simp [owed, owes]
  | noWorkers k hk hw => exact h.setStep hk rfl fun _ _ => rfl
  | getWorkers k hk hw => exact h.getWorkers hk
  | isBlocking k w reached workers ready hk hw hb => exact h.setStep hk rfl fun _ _ => rfl
  | sendSteps k workers hk => exact h.setStep hk rfl fun _ _ => by simp [owes, StepAt.beforeSet]
  | setClockWatch k w workers pos currentClock hk hw hp =>
    exact h.setClockWatch hk hw hp fun hmem =>
      hok hmem (.read currentClock) (hp ▸ System.posAt_of_stepping hk w)
  | tell k w workers pos sv newClock todo hk hw hp =>
    exact h.setStep hk rfl fun _ _ => owes_update fun _ => by rw [hp]; rfl
  | worker k w o workers pos hk hw hset =>
    refine h.setStep hk rfl fun v hv => owes_update fun hvw => ?_
    exact beforeSet_after hset (hok (hvw ▸ hv) _ (System.posAt_of_stepping hk w))
  | incrementClock k workers pos hk hended => exact h.incrementClock hk hended _
  | resetClock j w ok call =>
    exact h.onWorker (f := fun wk => { wk with clockWatch := 0 }) w fun hw => (hok rfl hw).symm
  | setClock j ok clock hj =>
    rcases hok clock (System.clockToSet_of_setClock hj) with hempty | rfl
    · intro w hw
      exact absurd (hempty ▸ hw) (Finset.notMem_empty w)
    · exact h

theorem Inv.step (s : System) (o : Op) (h : Inv s) (hok : Kept s o) : Inv (s.step o) := h.effect hok (s.step_effect o)

/-- **Clock agreement.** In every run whose steps all meet the condition, whenever no request is in flight the leader's
clock is the clock of every registered worker. -/
theorem clocks_agree (ops : List Op) (hok : Along System.step Kept System.start ops)
    (hq : Quiet (run System.step System.start ops)) : Agree (run System.step System.start ops) :=
  agree_of_quiet (Core.run_inv Inv.step (fun w hw => absurd hw (Finset.notMem_empty w)) hok) hq

/-- the messages of worker 0 in the `k`-th step, from the setting of its clock watch on -/
def finish (k : ℕ) : List Op := List.replicate 7 (.worker k 0 .next) ++ [.incrementClock k]

/-- a worker is registered and one step runs through -/
def oneStep : List Op :=
  [.addWorker 0 true, .stepRequest, .getWorkers 0, .isBlocking 0 0 true, .sendSteps 0, .worker 0 0 .next] ++ finish 0

/-- both clocks are 1 -/
theorem oneStep_agrees : Agree (run System.step System.start oneStep) :=
  clocks_agree oneStep (by decide) (by decide)

/-- two steps at once: the worker's clock is read for both, then set for both -/
def twoSteps : List Op :=
  [.addWorker 0 true, .stepRequest, .stepRequest, .getWorkers 0, .getWorkers 1, .isBlocking 0 0 true,
    .isBlocking 1 0 true, .sendSteps 0, .sendSteps 1, .worker 0 0 .next, .worker 1 0 .next] ++ finish 0 ++ finish 1

/-- **The clocks come apart.** After two steps at once the leader's clock is 2 and the worker's is 1. -/
theorem concurrent_steps_disagree :
    ¬ ∀ ops : List Op, Quiet (run System.step System.start ops) → Agree (run System.step System.start ops) := by
  intro h
  exact absurd (h twoSteps (by decide)) (by decide)

end BigWorlds.LockStep.ClockAgreement
