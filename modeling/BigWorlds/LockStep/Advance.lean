/-
What an empty error in an `AdvanceResponse` says about the cluster. A call is accepted when it takes its target from
the server's clock watch. The watch is set by a worker, before that worker has run its behaviors, whatever the other
workers do and before the leader increments its own clock.

- `advance_truthful`: the condition on the steps of a run (`Truthful`) under which an empty error means that the steps
  asked for have been completed since the call was accepted, on every worker registered at the end of each;
- `answered_before_step_completes`: one worker, one server, one client. The answer arrives while the only step is in
  flight, with the leader's clock at 0 and the behavior not triggered yet.
-/
import BigWorlds.LockStep.System

namespace BigWorlds.LockStep.Advance

open BigWorlds.Core (Watch run Along)

/-! ## What is to hold -/

/-- `n` steps have been completed on the way from `s` to `s'` -/
def Completed (n : ℕ) (s s' : System) : Prop :=
  s.clock + n ≤ s'.clock ∧ n ≤ (s'.log.drop s.log.length).length ∧ ∀ r ∈ s'.log.drop s.log.length, r.Complete

instance (n : ℕ) (s s' : System) : Decidable (Completed n s s') := inferInstanceAs (Decidable (_ ∧ _ ∧ _))

/-- the `i`-th call of the server has the given place -/
def CallAt (s : System) (sv : ServerId) (i : ℕ) (pc : Pc) : Prop :=
  ∃ r ∈ (s.server sv).calls[i]?, r.pc = pc

instance (s : System) (sv : ServerId) (i : ℕ) (pc : Pc) : Decidable (CallAt s sv i pc) :=
  inferInstanceAs (Decidable (∃ r ∈ (s.server sv).calls[i]?, _))

/-- the number of steps the `i`-th call asks for -/
def stepCount (s : System) (sv : ServerId) (i : ℕ) : ℕ := ((s.server sv).calls[i]?.map (·.stepCount.toNat)).getD 0

/-! ## The condition -/

/-- the step has not set the clock of any worker -/
def NoneSet : StepCall → Prop
  | .stepping workers pos => ∀ w ∈ workers, (pos w).beforeSet = true
  | _ => True

/-- the call takes its target when the server's clock is not behind the leader's, and answers when no step in flight
has set the clock of a worker -/
def TruthfulCall (s : System) (sv : ServerId) (r : AdvanceCall) : Prop :=
  match r.pc with
  | .checked => s.clock ≤ (s.server sv).clock.value
  | .reached _ => ∀ call ∈ s.steps, NoneSet call
  | _ => True

/-- the worker does not fail before its behaviors have answered, and they answer -/
def Answers : StepOp → StepAt → Prop
  | .join _ answered, .joining _ _ => answered = true
  | .fail, .machines [] _ | .fail, .subscriptions _ | .fail, .ended _ => True
  | .fail, _ => False
  | _, _ => True

/-- **The condition on a step.** A call meets `TruthfulCall`, and its watch does not close while it waits. A registered
worker does not fail in a `Step` before its synced behaviors have answered, and they answer. No worker is registered
while a step under way has its list of workers, and `LoadSnapshot` sets the clock the leader has. -/
def Truthful (s : System) : Op → Prop
  | .client sv (.next i) => ∀ r ∈ (s.server sv).calls[i]?, TruthfulCall s sv r
  | .client sv (.watchClosed i) => ∀ r ∈ (s.server sv).calls[i]?, r.isWaiting = false
  | .addWorker _ accepted => accepted = true → ∀ call ∈ s.steps, call.isRunning = false
  | .worker k w o => w ∈ s.workers → ∀ p ∈ s.posAt k w, Answers o p
  | .loadNext j _ => ∀ clock ∈ s.clockToSet j, clock = s.clock
  | _ => True

instance (call : StepCall) : Decidable (NoneSet call) :=
  match call with
  | .stepping workers pos => inferInstanceAs (Decidable (∀ w ∈ workers, (pos w).beforeSet = true))
  | .received | .polling _ _ | .done => .isTrue trivial

instance (s : System) (sv : ServerId) (r : AdvanceCall) : Decidable (TruthfulCall s sv r) :=
  match r with
  | ⟨_, _, .checked⟩ => inferInstanceAs (Decidable (s.clock ≤ (s.server sv).clock.value))
  | ⟨_, _, .reached _⟩ => inferInstanceAs (Decidable (∀ call ∈ s.steps, NoneSet call))
  | ⟨_, _, .called⟩ | ⟨_, _, .targeted _⟩ | ⟨_, _, .waiting _ _⟩ | ⟨_, _, .answered _⟩ | ⟨_, _, .panicked⟩ =>
    .isTrue trivial

instance (o : StepOp) (p : StepAt) : Decidable (Answers o p) := by
  rcases o with _ | _ | _ | _ <;> rcases p with _ | _ | _ | _ | _ | _ | ⟨_ | _, _⟩ | _ | _ <;> unfold Answers <;>
    infer_instance

instance (s : System) (o : Op) : Decidable (Truthful s o) := by
  rcases o with ⟨_, _ | _ | _ | _ | _ | _ | _ | _⟩ | _ | _ | _ | _ | _ | _ | _ | _ | _ | _ | _ | _ | _ | _ | _ | _ |
    _ | _ | _ | _ | _ | _ <;> unfold Truthful <;> infer_instance

/-! ## The clocks on the way to a server -/

/-- the step has set the clock of the worker -/
def hasSet (w : WorkerId) : StepCall → Bool
  | .stepping workers pos => decide (w ∈ workers) && !(pos w).beforeSet
  | _ => false

/-- the leader's clock once the steps that have set the worker's clock are through -/
def ahead (s : System) (w : WorkerId) : ℕ := s.clock + s.steps.countP (hasSet w)

/-- the clock value a step carries at a worker -/
def carried (w : WorkerId) : StepCall → ℕ
  | .stepping workers pos =>
    if w ∈ workers then
      match pos w with
      | .read clock | .clockSet clock | .telling clock _ => clock
      | _ => 0
    else 0
  | _ => 0

/-- a clock value that some worker had -/
def Reported (s : System) (clock : ℕ) : Prop := clock = 0 ∨ ∃ w, clock ≤ ahead s w

structure Bounded (s : System) : Prop where
  watch : ∀ w, (s.worker w).clockWatch ≤ ahead s w
  carried : ∀ call ∈ s.steps, ∀ w, carried w call ≤ ahead s w
  server : ∀ sv, Reported s (s.server sv).clock.value

theorem Reported.mono {s s' : System} {clock : ℕ} (h : Reported s clock) (ha : ∀ w, ahead s w ≤ ahead s' w) :
    Reported s' clock := h.imp_right fun ⟨w, hw⟩ => ⟨w, hw.trans (ha w)⟩

/-- a call of `process_step` moves on -/
theorem ahead_setStep {s : System} {k : ℕ} {a : StepCall} (b : StepCall) (h : s.steps[k]? = some a) (w : WorkerId) :
    ahead (s.setStep k b) w + (if hasSet w a then 1 else 0) = ahead s w + if hasSet w b then 1 else 0 := by
  have hcount := Core.countP_set_add (p := hasSet w) b h
  simp only [ahead, System.setStep]
  omega

theorem ahead_le_setStep {s : System} {k : ℕ} {a b : StepCall} (h : s.steps[k]? = some a) {w : WorkerId}
    (hs : hasSet w a = true → hasSet w b = true) : ahead s w ≤ ahead (s.setStep k b) w := by
  have hadd := ahead_setStep b h w
  split_ifs at hadd with h1 h2 h2
  · omega
  · exact absurd (hs h1) h2
  · omega
  · omega

theorem hasSet_update {w v : WorkerId} {workers : Finset WorkerId} {pos : WorkerId → StepAt} {p : StepAt}
    (h : (pos w).beforeSet = false → p.beforeSet = false) :
    hasSet v (.stepping workers pos) = true → hasSet v (.stepping workers (Function.update pos w p)) = true := by
  by_cases hvw : v = w
  · subst hvw
    simp only [hasSet, Function.update_self, Bool.and_eq_true, Bool.not_eq_true']
    exact fun hs => ⟨hs.1, h hs.2⟩
  · simp only [hasSet, Function.update_of_ne hvw]
    exact id

theorem beforeSet_after {wk : Worker} {o : StepOp} {p : StepAt} (h : p.beforeSet = false) :
    (p.after wk o).beforeSet = false := by
  cases o with
  | next =>
    cases p with
    | telling newClock todo =>
      simp only [StepAt.after, StepAt.next]
      split_ifs <;> rfl
    | joining todo all => cases todo <;> rfl
    | machines todo all => cases todo <;> rfl
    | sent => cases h
    | read currentClock => cases h
    | _ => rfl
  | tell server reached => cases p <;> first | rfl | exact h
  | join i answered => cases p <;> first | rfl | exact h
  | fail =>
    cases p with
    | machines todo all => cases todo <;> rfl
    | _ => rfl

/-- the leader's clock only comes nearer to what the workers have told -/
theorem ahead_mono {s s' : System} {o : Op} (hok : Truthful s o) (he : s.Effect o s') (w : WorkerId) :
    ahead s w ≤ ahead s' w := by
  cases he with
  | stepRequest => simp [ahead, hasSet]
  | noWorkers k hk hw => exact ahead_le_setStep hk nofun
  | getWorkers k hk hw => exact ahead_le_setStep hk nofun
  | isBlocking k w reached workers ready hk hw hb => exact ahead_le_setStep hk nofun
  | sendSteps k workers hk => exact ahead_le_setStep hk nofun
  | setClockWatch k w workers pos currentClock hk hw hp => exact ahead_le_setStep hk (hasSet_update fun _ => rfl)
  | tell k w workers pos sv newClock todo hk hw hp => exact ahead_le_setStep hk (hasSet_update fun _ => rfl)
  | worker k w o workers pos hk hw hset => exact ahead_le_setStep hk (hasSet_update beforeSet_after)
  | incrementClock k workers pos hk hended =>
    have hadd := ahead_setStep .done hk w
    have hdone : hasSet w .done = false := rfl
    have hone : (if hasSet w (.stepping workers pos) then 1 else 0) ≤ 1 := by split_ifs <;> omega
    simp only [ahead, System.setStep, hdone, Bool.false_eq_true, if_false] at hadd ⊢
    omega
  | setClock j ok clock hj => exact le_of_eq (by rw [ahead, ahead, hok clock (System.clockToSet_of_setClock hj)]; rfl)
  | monitorTell sv w blocking delivered hphase => cases delivered <;> exact le_rfl
  | _ => exact le_rfl

theorem clock_onServer {s : System} {sv : ServerId} {f : Server → Server} (hf : ∀ server, (f server).clock = server.clock)
    (sv' : ServerId) : ((s.onServer sv f).server sv').clock = (s.server sv').clock := by
  by_cases h : sv' = sv
  · subst h
    rw [s.server_onServer_self, hf]
  · rw [s.server_onServer_ne f h]

theorem Bounded.onServer {s : System} (h : Bounded s) (sv : ServerId) {f : Server → Server}
    (hf : ∀ server, (f server).clock = server.clock) : Bounded (s.onServer sv f) :=
  ⟨h.watch, h.carried, fun sv' => (clock_onServer hf sv').symm ▸ h.server sv'⟩

theorem Bounded.onWorker {s : System} (h : Bounded s) (w : WorkerId) {f : Worker → Worker}
    (hf : ∀ wk, (f wk).clockWatch ≤ wk.clockWatch) : Bounded (s.onWorker w f) := by
  refine ⟨fun v => ?_, h.carried, h.server⟩
  by_cases hvw : v = w
  · subst hvw
    rw [s.worker_onWorker_self]
    exact (hf _).trans (h.watch v)
  · rw [s.worker_onWorker_ne f hvw]
    exact h.watch v

/-- a call of `process_step` moves on, carrying no clock value it did not carry before -/
theorem Bounded.setStep {s : System} (h : Bounded s) {k : ℕ} {b : StepCall}
    (ha : ∀ w, ahead s w ≤ ahead (s.setStep k b) w) (hb : ∀ w, Advance.carried w b ≤ ahead (s.setStep k b) w) :
    Bounded (s.setStep k b) where
  watch w := (h.watch w).trans (ha w)
  carried call hcall w := by
    rcases List.mem_or_eq_of_mem_set hcall with hcall | rfl
    · exact (h.carried call hcall w).trans (ha w)
    · exact hb w
  server sv := (h.server sv).mono ha

theorem carried_update_ne {w v : WorkerId} {workers : Finset WorkerId} {pos : WorkerId → StepAt} {p : StepAt}
    (hvw : v ≠ w) :
    Advance.carried v (.stepping workers (Function.update pos w p)) = Advance.carried v (.stepping workers pos) := by
  simp only [Advance.carried, Function.update_of_ne hvw]

/-- a worker moves on in a step: its clock value is bounded by what is bounded at the new place -/
theorem Bounded.moved {s : System} (h : Bounded s) {k : ℕ} {w : WorkerId} {workers : Finset WorkerId}
    {pos : WorkerId → StepAt} {p : StepAt} (hk : s.steps[k]? = some (.stepping workers pos))
    (hset : (pos w).beforeSet = false → p.beforeSet = false)
    (hp : Advance.carried w (.stepping workers (Function.update pos w p)) ≤ ahead (s.moved k w workers pos p) w) :
    Bounded (s.moved k w workers pos p) := by
  have ha : ∀ v, ahead s v ≤ ahead (s.moved k w workers pos p) v := fun v => ahead_le_setStep hk (hasSet_update hset)
  refine h.setStep ha fun v => ?_
  by_cases hvw : v = w
  · subst hvw
    exact hp
  · rw [carried_update_ne hvw]
    exact (h.carried _ (List.mem_of_getElem? hk) v).trans (ha v)

/-- a place without a new clock value -/
theorem carried_after {wk : Worker} {w : WorkerId} {o : StepOp} {workers : Finset WorkerId} {pos : WorkerId → StepAt}
    (hset : o = .next → ∀ c, pos w ≠ .read c) :
    Advance.carried w (.stepping workers (Function.update pos w ((pos w).after wk o))) ≤
      max wk.clockWatch (Advance.carried w (.stepping workers pos)) := by
  simp only [Advance.carried, Function.update_self]
  split_ifs
  · cases o with
    | next =>
      cases hp : pos w with
      | sent => simp [StepAt.after, StepAt.next]
      | read currentClock => exact absurd hp (hset rfl currentClock)
      | telling newClock todo =>
        simp only [StepAt.after, StepAt.next]
        split_ifs <;> simp
      | joining todo all => cases todo <;> simp [StepAt.after, StepAt.next]
      | machines todo all => cases todo <;> simp [StepAt.after, StepAt.next]
      | _ => simp [StepAt.after, StepAt.next]
    | tell server reached => cases pos w <;> simp [StepAt.after]
    | join i answered => cases pos w <;> simp [StepAt.after]
    | fail =>
      cases pos w with
      | machines todo all => cases todo <;> simp [StepAt.after, StepAt.fail]
      | _ => simp [StepAt.after, StepAt.fail]
  · exact Nat.zero_le _

/-- the clock watch is set: one more step has set it -/
theorem Bounded.setClockWatch {s : System} (h : Bounded s) {k : ℕ} {w : WorkerId} {workers : Finset WorkerId}
    {pos : WorkerId → StepAt} {currentClock : ℕ} (hk : s.steps[k]? = some (.stepping workers pos)) (hw : w ∈ workers)
    (hp : pos w = .read currentClock) :
    Bounded ((s.onWorker w fun wk => { wk with clockWatch := currentClock + 1 }).moved k w workers pos
      (.clockSet (currentClock + 1))) := by
  have ha : ∀ v, ahead s v ≤ ahead (s.moved k w workers pos (.clockSet (currentClock + 1))) v :=
    fun v => ahead_le_setStep hk (hasSet_update fun _ => rfl)
  have hread : currentClock ≤ ahead s w := by
    have hcarried := h.carried _ (List.mem_of_getElem? hk) w
    simpa only [Advance.carried, hw, hp, if_true] using hcarried
  have hone : currentClock + 1 ≤ ahead (s.moved k w workers pos (.clockSet (currentClock + 1))) w := by
    have hadd := ahead_setStep (.stepping workers (Function.update pos w (.clockSet (currentClock + 1)))) hk w
    simp only [hasSet, hw, hp, StepAt.beforeSet, Function.update_self, decide_true, Bool.not_true, Bool.not_false,
      Bool.and_false, Bool.and_true, Bool.false_eq_true, if_false, if_true] at hadd
    simp only [System.moved]
    omega
  refine ⟨fun v => ?_, fun call hcall v => ?_, fun sv => (h.server sv).mono ha⟩
  · by_cases hvw : v = w
    · subst hvw
      have hself := s.worker_onWorker_self v fun wk => { wk with clockWatch := currentClock + 1 }
      exact le_of_eq_of_le (congrArg Worker.clockWatch hself) hone
    · have hother := s.worker_onWorker_ne (fun wk => { wk with clockWatch := currentClock + 1 }) hvw
      exact le_of_eq_of_le (congrArg Worker.clockWatch hother) ((h.watch v).trans (ha v))
  · rcases List.mem_or_eq_of_mem_set hcall with hcall | rfl
    · exact (h.carried call hcall v).trans (ha v)
    · by_cases hvw : v = w
      · subst hvw
        refine le_of_eq_of_le ?_ hone
        simp only [Advance.carried, hw, Function.update_self, if_true]
      · rw [carried_update_ne hvw]
        exact (h.carried _ (List.mem_of_getElem? hk) v).trans (ha v)

theorem Bounded.tell {s : System} (h : Bounded s) (sv : ServerId) {clock : ℕ} (hc : Reported s clock) :
    Bounded (s.onServer sv fun server => server.clockChangedTo clock) := by
  refine ⟨h.watch, h.carried, fun sv' => ?_⟩
  by_cases hsv : sv' = sv
  · subst hsv
    rw [s.server_onServer_self]
    exact hc
  · rw [s.server_onServer_ne _ hsv]
    exact h.server sv'

theorem Bounded.effect {s s' : System} {o : Op} (h : Bounded s) (hok : Truthful s o) (he : s.Effect o s') :
    Bounded s' := by
  have hmono := ahead_mono hok he
  cases he with
  | none => exact h
  | initRequest | init | loadSnapshot | setModel => exact ⟨h.watch, h.carried, h.server⟩
  | client sv o => exact h.onServer sv fun server => server.clock_clientStep o
  | monitorStart sv => exact h.onServer sv fun server => Server.clock_of_setMonitor server.monitorStart_eq
  | monitorWake sv => exact h.onServer sv fun server => Server.clock_of_setMonitor server.monitorWake_eq
  | monitorTell sv w blocking delivered hphase =>
    have htold : ∀ server : Server, server.monitorTold.clock = server.clock :=
      fun server => Server.clock_of_setMonitor server.monitorTold_eq
    cases delivered with
    | false => exact h.onServer sv htold
    | true =>
      exact (h.onWorker (f := fun wk => { wk with blockedWatch := blocking }) w fun _ => le_rfl).onServer sv htold
  | monitorRefresh sv locked =>
    exact h.onServer sv fun server => Server.clock_of_setMonitor (server.monitorRefresh_eq locked)
  | setWorker sv w => exact h.onServer sv fun _ => rfl
  | insertServer w sv => exact h.onWorker w fun _ => le_rfl
  | addBehavior w b => exact h.onWorker w fun _ => le_rfl
  | addMachine w b => exact h.onWorker w fun _ => le_rfl
  | addWorker w => exact ⟨h.watch, h.carried, h.server⟩
  | removeWorker w => exact ⟨h.watch, h.carried, h.server⟩
  | stepRequest =>
    refine ⟨fun w => (h.watch w).trans (hmono w), fun call hcall w => ?_, fun sv => (h.server sv).mono hmono⟩
    rcases List.mem_append.mp hcall with hcall | hcall
    · exact (h.carried call hcall w).trans (hmono w)
    · rw [List.mem_singleton.mp hcall]
      exact Nat.zero_le _
  | noWorkers k hk hw => exact h.setStep hmono fun _ => Nat.zero_le _
  | getWorkers k hk hw => exact h.setStep hmono fun _ => Nat.zero_le _
  | isBlocking k w reached workers ready hk hw hb => exact h.setStep hmono fun _ => Nat.zero_le _
  | sendSteps k workers hk =>
    refine h.setStep hmono fun w => le_of_eq_of_le ?_ (Nat.zero_le _)
    simp only [Advance.carried]
    split_ifs <;> rfl
  | setClockWatch k w workers pos currentClock hk hw hp => exact h.setClockWatch hk hw hp
  | tell k w workers pos sv newClock todo hk hw hp =>
    have hcarried := h.carried _ (List.mem_of_getElem? hk) w
    simp only [Advance.carried, hw, hp, if_true] at hcarried
    have htold := h.tell sv (.inr ⟨w, hcarried⟩)
    refine htold.moved hk (fun _ => rfl) ?_
    simp only [Advance.carried, hw, Function.update_self, if_true]
    exact hcarried.trans (hmono w)
  | worker k w o workers pos hk hw hset =>
    refine h.moved hk beforeSet_after ((carried_after hset).trans ((max_le ?_ ?_).trans (hmono w)))
    · exact h.watch w
    · exact h.carried _ (List.mem_of_getElem? hk) w
  | incrementClock k workers pos hk hended =>
    refine ⟨fun w => (h.watch w).trans (hmono w), fun call hcall w => ?_, fun sv => (h.server sv).mono hmono⟩
    rcases List.mem_or_eq_of_mem_set hcall with hcall | rfl
    · exact (h.carried call hcall w).trans (hmono w)
    · exact Nat.zero_le _
  | resetClock j w ok call =>
    have hreset := h.onWorker (f := fun wk => { wk with clockWatch := 0 }) w fun _ => Nat.zero_le _
    exact ⟨hreset.watch, hreset.carried, hreset.server⟩
  | setClock j ok clock hj =>
    exact ⟨fun w => (h.watch w).trans (hmono w), fun call hcall w => (h.carried call hcall w).trans (hmono w),
      fun sv => (h.server sv).mono hmono⟩

/-! ## The rounds -/

/-- all triggered behaviors have answered so far -/
def allSoFar : StepAt → Bool
  | .joining _ all | .machines _ all | .subscriptions all | .ended all => all
  | _ => true

/-- the step is for every registered worker, and has failed on none -/
def Sound (registered : Finset WorkerId) : StepCall → Prop
  | .polling workers _ => registered ⊆ workers
  | .stepping workers pos => registered ⊆ workers ∧ ∀ w ∈ registered, allSoFar (pos w) = true
  | _ => True

theorem Sound.mono {registered registered' : Finset WorkerId} (hsub : registered' ⊆ registered) {call : StepCall}
    (h : Sound registered call) : Sound registered' call := by
  cases call with
  | polling workers ready => exact hsub.trans h
  | stepping workers pos => exact ⟨hsub.trans h.1, fun w hw => h.2 w (hsub hw)⟩
  | _ => trivial

theorem allSoFar_after {wk : Worker} {o : StepOp} {p : StepAt} (hok : Answers o p) (h : allSoFar p = true) :
    allSoFar (p.after wk o) = true := by
  cases o with
  | next =>
    cases p with
    | telling newClock todo =>
      simp only [StepAt.after, StepAt.next]
      split_ifs <;> rfl
    | joining todo all => cases todo <;> exact h
    | machines todo all => cases todo <;> exact h
    | _ => first | rfl | exact h
  | tell server reached => cases p <;> first | rfl | exact h
  | join i answered =>
    cases p with
    | joining todo all =>
      simp only [Answers] at hok
      subst hok
      simp only [allSoFar] at h
      subst h
      rfl
    | _ => first | rfl | exact h
  | fail =>
    cases p with
    | machines todo all =>
      cases todo with
      | nil => exact h
      | cons b rest => exact hok.elim
    | subscriptions all => exact h
    | ended all => exact h
    | _ => exact hok.elim

theorem sound_moved {registered workers : Finset WorkerId} {pos : WorkerId → StepAt} {w : WorkerId} {p : StepAt}
    (h : Sound registered (.stepping workers pos)) (hp : w ∈ registered → allSoFar (pos w) = true → allSoFar p = true) :
    Sound registered (.stepping workers (Function.update pos w p)) := by
  refine ⟨h.1, fun v hv => ?_⟩
  by_cases hvw : v = w
  · subst hvw
    rw [Function.update_self]
    exact hp hv (h.2 v hv)
  · rw [Function.update_of_ne hvw]
    exact h.2 v hv

def AllSound (s : System) : Prop := ∀ call ∈ s.steps, Sound s.workers call

theorem AllSound.effect {s s' : System} {o : Op} (h : AllSound s) (hok : Truthful s o) (he : s.Effect o s') :
    AllSound s' := by
  cases he with
  | monitorTell sv w blocking delivered hphase => cases delivered <;> exact h
  | addWorker w =>
    intro call hcall
    have hnot := hok rfl call hcall
    cases call with
    | polling workers ready => cases hnot
    | stepping workers pos => cases hnot
    | _ => trivial
  | removeWorker w => exact fun call hcall => (h call hcall).mono (Finset.erase_subset _ _)
  | stepRequest =>
    intro call hcall
    rcases List.mem_append.mp hcall with hcall | hcall
    · exact h call hcall
    · rw [List.mem_singleton.mp hcall]
      trivial
  | noWorkers k hk hw => exact Core.forall_mem_set h trivial
  | getWorkers k hk hw => exact Core.forall_mem_set h (Finset.Subset.refl s.workers)
  | isBlocking k w reached workers ready hk hw hb =>
    have hsub : s.workers ⊆ workers := h _ (List.mem_of_getElem? hk)
    exact Core.forall_mem_set h hsub
  | sendSteps k workers hk =>
    exact Core.forall_mem_set h ⟨h _ (List.mem_of_getElem? hk), fun _ _ => rfl⟩
  | setClockWatch k w workers pos currentClock hk hw hp =>
    exact Core.forall_mem_set h (sound_moved (h _ (List.mem_of_getElem? hk)) fun _ _ => rfl)
  | tell k w workers pos sv newClock todo hk hw hp =>
    exact Core.forall_mem_set h (sound_moved (h _ (List.mem_of_getElem? hk)) fun _ _ => rfl)
  | worker k w o workers pos hk hw hset =>
    refine Core.forall_mem_set h (sound_moved (h _ (List.mem_of_getElem? hk)) fun hreg hall => ?_)
    exact allSoFar_after (hok hreg _ (System.posAt_of_stepping hk w)) hall
  | incrementClock k workers pos hk hended => exact Core.forall_mem_set h trivial
  | _ => exact h

/-- since `s₀`, each increment of the leader's clock is a complete round of the log -/
def Since (s₀ s : System) : Prop :=
  ∃ rounds : List Round, s.log = s₀.log ++ rounds ∧ s.clock = s₀.clock + rounds.length ∧ ∀ r ∈ rounds, r.Complete

theorem Since.refl (s : System) : Since s s := ⟨[], (List.append_nil _).symm, rfl, nofun⟩

theorem round_complete {registered workers : Finset WorkerId} {pos : WorkerId → StepAt}
    (h : Sound registered (.stepping workers pos)) (hended : ∀ w ∈ workers, (pos w).isEnded = true) :
    Round.Complete ⟨registered, workers.filter fun w => pos w = .ended true⟩ := by
  intro w hw
  have hmem := h.1 hw
  refine Finset.mem_filter.mpr ⟨hmem, ?_⟩
  have he := hended w hmem
  have hall := h.2 w hw
  cases hp : pos w with
  | ended all =>
    rw [hp] at hall
    exact congrArg StepAt.ended hall
  | _ =>
    rw [hp] at he
    cases he

theorem Since.effect {s₀ s s' : System} {o : Op} (h : Since s₀ s) (hsound : AllSound s) (hok : Truthful s o)
    (he : s.Effect o s') : Since s₀ s' := by
  cases he with
  | monitorTell sv w blocking delivered hphase => cases delivered <;> exact h
  | incrementClock k workers pos hk hended =>
    obtain ⟨rounds, hlog, hclock, hall⟩ := h
    refine ⟨rounds ++ [⟨s.workers, workers.filter fun w => pos w = .ended true⟩], ?_, ?_, fun r hr => ?_⟩
    · simp only [hlog, List.append_assoc]
    · simp only [hclock, List.length_append, List.length_singleton]
      omega
    · rcases List.mem_append.mp hr with hr | hr
      · exact hall r hr
      · rw [List.mem_singleton.mp hr]
        exact round_complete (hsound _ (List.mem_of_getElem? hk)) hended
  | setClock j ok clock hj =>
    obtain ⟨rounds, hlog, hclock, hall⟩ := h
    exact ⟨rounds, hlog, (hok clock (System.clockToSet_of_setClock hj)).trans hclock, hall⟩
  | _ => exact h

theorem Since.completed {s₀ s : System} (h : Since s₀ s) {n : ℕ} (hn : s₀.clock + n ≤ s.clock) : Completed n s₀ s := by
  obtain ⟨rounds, hlog, hclock, hall⟩ := h
  have hdrop : s.log.drop s₀.log.length = rounds := by rw [hlog, List.drop_left]
  refine ⟨hn, ?_, ?_⟩
  · rw [hdrop]
    omega
  · rw [hdrop]
    exact hall

/-! ## The call -/

/-- what holds of an accepted call that is to answer when the leader's clock is at `due` -/
def Promised (due : ℕ) (s : System) : Pc → Prop
  | .called | .checked => False
  | .targeted targetClock | .waiting targetClock _ => due ≤ targetClock
  | .reached targetClock => due ≤ targetClock ∧ Reported s targetClock
  | .answered answer => answer = .ok "" → due ≤ s.clock
  | .panicked => True

def Pending (due : ℕ) (sv : ServerId) (i : ℕ) (s : System) : Prop :=
  ∃ r, (s.server sv).calls[i]? = some r ∧ Promised due s r.pc

theorem Promised.mono {due : ℕ} {s s' : System} {pc : Pc} (h : Promised due s pc) (hc : s.clock ≤ s'.clock)
    (ha : ∀ w, ahead s w ≤ ahead s' w) : Promised due s' pc := by
  cases pc with
  | reached targetClock => exact ⟨h.1, h.2.mono ha⟩
  | answered answer => exact fun he => (h he).trans hc
  | _ => exact h

theorem ahead_of_noneSet {s : System} (h : ∀ call ∈ s.steps, NoneSet call) (w : WorkerId) : ahead s w = s.clock := by
  have hzero : s.steps.countP (hasSet w) = 0 := by
    refine List.countP_eq_zero.mpr fun call hcall => ?_
    have hnone := h call hcall
    cases call with
    | stepping workers pos =>
      by_cases hw : w ∈ workers
      · simp [hasSet, hnone w hw]
      · simp [hasSet, hw]
    | _ => simp [hasSet]
  rw [ahead, hzero, Nat.add_zero]

/-- an accepted call moves on -/
theorem promised_handle {due : ℕ} {s : System} {sv : ServerId} {i : ℕ} {r : AdvanceCall} (hb : Bounded s)
    (hr : (s.server sv).calls[i]? = some r) (h : Promised due s r.pc) (hok : TruthfulCall s sv r) :
    ∃ r', ((s.server sv).handleAdvanceRequest i r).calls[i]? = some r' ∧ Promised due s r'.pc := by
  obtain ⟨client, stepCount, pc⟩ := r
  unfold Server.handleAdvanceRequest
  cases pc with
  | called => exact h.elim
  | checked => exact h.elim
  | targeted targetClock => exact ⟨_, Server.getElem?_setCall_self hr _ _, h⟩
  | waiting targetClock seen =>
    simp only
    split_ifs with h1 h2 h3
    · exact ⟨_, hr, h⟩
    · exact ⟨_, Server.getElem?_setCall_self hr _ _, h, h2 ▸ hb.server sv⟩
    · exact ⟨_, Server.getElem?_setCall_self hr _ _, nofun⟩
    · exact ⟨_, Server.getElem?_setCall_self hr _ _, h⟩
  | reached targetClock =>
    refine ⟨_, Server.getElem?_setCall_self hr _ _, fun _ => ?_⟩
    obtain ⟨hdue, hzero | ⟨w, hw⟩⟩ := h
    · omega
    · rw [ahead_of_noneSet hok w] at hw
      exact hdue.trans hw
  | answered answer => exact ⟨_, hr, h⟩
  | panicked => exact ⟨_, hr, h⟩

/-- a client's operation keeps the promise -/
theorem Pending.client {due : ℕ} {s : System} {sv sv' : ServerId} {i : ℕ} {o : ClientOp} (h : Pending due sv i s)
    (hb : Bounded s) (hok : Truthful s (.client sv' o)) :
    Pending due sv i (s.onServer sv' fun server => server.clientStep o) := by
  obtain ⟨r, hr, hp⟩ := h
  have hlift : ∀ pc, Promised due s pc → Promised due (s.onServer sv' fun server => server.clientStep o) pc :=
    fun pc hpc => hpc.mono le_rfl fun _ => le_rfl
  unfold Pending
  by_cases hsv : sv = sv'
  · subst hsv
    rw [s.server_onServer_self]
    rcases Server.call_clientStep hr o with hsame | ⟨rfl, hnext⟩ | ⟨rfl, hdrop⟩ | ⟨rfl, hw, -⟩
    · exact ⟨r, hsame, hlift _ hp⟩
    · rw [hnext]
      obtain ⟨r', hr', hp'⟩ := promised_handle hb hr hp (hok r hr)
      exact ⟨r', hr', hlift _ hp'⟩
    · rw [hdrop]
      unfold Server.dropped
      split
      · exact ⟨r, hr, hlift _ hp⟩
      · exact ⟨r, hr, hlift _ hp⟩
      · exact ⟨_, Server.getElem?_setCall_self hr _ _, nofun⟩
    · rw [hok r hr] at hw
      cases hw
  · rw [s.server_onServer_ne _ hsv]
    exact ⟨r, hr, hlift _ hp⟩

/-- whatever leaves the calls of the servers alone keeps the promise -/
theorem Pending.congr {due : ℕ} {s s' : System} {sv : ServerId} {i : ℕ} (h : Pending due sv i s)
    (hcalls : (s'.server sv).calls = (s.server sv).calls) (hc : s.clock ≤ s'.clock)
    (ha : ∀ w, ahead s w ≤ ahead s' w) : Pending due sv i s' := by
  obtain ⟨r, hr, hp⟩ := h
  exact ⟨r, by rw [hcalls, hr], hp.mono hc ha⟩

theorem calls_onServer {s : System} {sv : ServerId} {f : Server → Server}
    (hf : ∀ server, (f server).calls = server.calls) (sv' : ServerId) :
    ((s.onServer sv f).server sv').calls = (s.server sv').calls := by
  by_cases h : sv' = sv
  · subst h
    rw [s.server_onServer_self, hf]
  · rw [s.server_onServer_ne f h]

theorem Pending.effect {due : ℕ} {s s' : System} {o : Op} {sv : ServerId} {i : ℕ} (h : Pending due sv i s)
    (hb : Bounded s) (hok : Truthful s o) (he : s.Effect o s') : Pending due sv i s' := by
  have ha := ahead_mono hok he
  cases he with
  | none => exact h
  | client sv' o => exact h.client hb hok
  | monitorStart sv' =>
    exact h.congr (calls_onServer (fun server => Server.calls_of_setMonitor server.monitorStart_eq) sv) le_rfl ha
  | monitorWake sv' =>
    exact h.congr (calls_onServer (fun server => Server.calls_of_setMonitor server.monitorWake_eq) sv) le_rfl ha
  | monitorTell sv' w blocking delivered hphase =>
    cases delivered <;>
      exact h.congr (calls_onServer (fun server => Server.calls_of_setMonitor server.monitorTold_eq) sv) le_rfl ha
  | monitorRefresh sv' locked =>
    exact h.congr (calls_onServer (fun server => Server.calls_of_setMonitor (server.monitorRefresh_eq locked)) sv)
      le_rfl ha
  | setWorker sv' w => exact h.congr (calls_onServer (f := fun server => server.setWorker w) (fun _ => rfl) sv) le_rfl ha
  | tell k w workers pos sv' newClock todo hk hw hp =>
    exact h.congr (calls_onServer (f := fun server => server.clockChangedTo newClock) (fun _ => rfl) sv) le_rfl ha
  | incrementClock k workers pos hk hended => exact h.congr rfl (Nat.le_succ _) ha
  | setClock j ok clock hj => exact h.congr rfl (hok clock (System.clockToSet_of_setClock hj)).ge ha
  | _ => exact h.congr rfl le_rfl ha

/-! ## Runs -/

structure Inv (s : System) : Prop where
  bounded : Bounded s
  sound : AllSound s

theorem Inv.step (s : System) (o : Op) (h : Inv s) (hok : Truthful s o) : Inv (s.step o) :=
  ⟨h.bounded.effect hok (s.step_effect o), h.sound.effect hok (s.step_effect o)⟩

theorem inv_start : Inv System.start := by
  refine ⟨⟨fun _ => Nat.zero_le _, ?_, fun _ => .inl rfl⟩, ?_⟩
  · intro call hcall
    cases hcall
  · intro call hcall
    cases hcall

/-- from the acceptance of a call on -/
structure Accepted (s₀ : System) (due : ℕ) (sv : ServerId) (i : ℕ) (s : System) : Prop where
  inv : Inv s
  since : Since s₀ s
  pending : Pending due sv i s

theorem Accepted.step {s₀ : System} {due : ℕ} {sv : ServerId} {i : ℕ} (s : System) (o : Op)
    (h : Accepted s₀ due sv i s) (hok : Truthful s o) : Accepted s₀ due sv i (s.step o) :=
  ⟨h.inv.step s o hok, h.since.effect h.inv.sound hok (s.step_effect o),
    h.pending.effect h.inv.bounded hok (s.step_effect o)⟩

/-- the call takes its target -/
theorem accept {s : System} {sv : ServerId} {i : ℕ} (h : Inv s) (hat : CallAt s sv i .checked)
    (hok : Truthful s (.client sv (.next i))) :
    Accepted s (s.clock + stepCount s sv i) sv i (s.step (.client sv (.next i))) := by
  refine ⟨h.step s _ hok, (Since.refl s).effect h.sound hok (s.step_effect _), ?_⟩
  obtain ⟨r, hr, hpc⟩ := hat
  have hclock := hok r hr
  obtain ⟨client, count, pc⟩ := r
  simp only at hpc
  subst hpc
  have hcount : stepCount s sv i = count.toNat := by
    rw [stepCount, hr]
    rfl
  rw [hcount]
  refine ⟨⟨client, count, .targeted ((s.server sv).clock.value + count.toNat)⟩, ?_, Nat.add_le_add_right hclock _⟩
  simp only [System.step, System.server_onServer_self, Server.clientStep]
  rw [hr]
  exact Server.getElem?_setCall_self hr _ _

/-- **Advance responses are truthful.** In every run whose steps all meet the condition: when a call accepted on the way
has answered with an empty error, the steps it asked for have been completed since. -/
theorem advance_truthful (before after : List Op) (sv : ServerId) (i : ℕ)
    (hok : Along System.step Truthful System.start (before ++ .client sv (.next i) :: after))
    (hat : CallAt (run System.step System.start before) sv i .checked)
    (hans : CallAt (run System.step System.start (before ++ .client sv (.next i) :: after)) sv i (.answered (.ok ""))) :
    Completed (stepCount (run System.step System.start before) sv i) (run System.step System.start before)
      (run System.step System.start (before ++ .client sv (.next i) :: after)) := by
  set s := run System.step System.start before with hs
  have hinv : Inv s := Core.run_inv Inv.step inv_start hok.take
  rw [Core.run_append, ← hs, Core.run_cons] at hans ⊢
  obtain ⟨hfirst, hrest⟩ := hok.drop
  rw [← hs] at hfirst hrest
  have hacc := Core.run_inv Accepted.step (accept hinv hat hfirst) hrest
  obtain ⟨r, hr, hpc⟩ := hans
  obtain ⟨r', hr', hp⟩ := hacc.pending
  obtain rfl : r' = r := Option.some.inj (hr'.symm.trans hr)
  rw [hpc] at hp
  exact hacc.since.completed (hp rfl)

/-- one worker with a synced behavior, and its server with a blocking client that asks for one step -/
def asked : List Op :=
  [.addWorker 0 true, .addBehavior 0 ⟨["step"]⟩, .insertServer 0 0, .client 0 (.register true),
    .client 0 (.insertClient 0), .client 0 (.advanceRequest 0 1), .client 0 (.next 0)]

/-- the call waits, a step is sent, and the worker sets its clock and tells the server -/
def told : List Op :=
  [.client 0 (.next 0), .stepRequest, .getWorkers 0, .isBlocking 0 0 true, .sendSteps 0, .worker 0 0 .next,
    .worker 0 0 .next, .worker 0 0 .next, .worker 0 0 (.tell 0 true)]

/-- the behavior is triggered and answers, the worker answers, the leader increments its clock -/
def completed : List Op :=
  [.worker 0 0 .next, .worker 0 0 .next, .worker 0 0 (.join 0 true), .worker 0 0 .next, .worker 0 0 .next,
    .worker 0 0 .next, .incrementClock 0]

/-- the call wakes and answers -/
def answer : List Op := [.client 0 (.next 0), .client 0 (.next 0)]

/-- the call answers after the step -/
theorem answered_after_step_completes :
    Completed 1 (run System.step System.start asked)
      (run System.step System.start (asked ++ .client 0 (.next 0) :: (told ++ completed ++ answer))) :=
  advance_truthful asked (told ++ completed ++ answer) 0 0 (by decide) (by decide) (by decide)

/-- **An early answer.** The call answers while the step is in flight: the leader's clock is 0 and the behavior has not
been triggered. -/
theorem answered_before_step_completes :
    ¬ ∀ (before after : List Op) (sv : ServerId) (i : ℕ), CallAt (run System.step System.start before) sv i .checked →
      CallAt (run System.step System.start (before ++ .client sv (.next i) :: after)) sv i (.answered (.ok "")) →
      Completed (stepCount (run System.step System.start before) sv i) (run System.step System.start before)
        (run System.step System.start (before ++ .client sv (.next i) :: after)) := by
  intro h
  exact absurd (h asked (told ++ answer) 0 0 (by decide) (by decide)) (by decide)

end BigWorlds.LockStep.Advance
