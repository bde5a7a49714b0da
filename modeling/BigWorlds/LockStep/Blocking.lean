/-
Lock-step: a blocking client that has not asked to advance holds its worker back. On the way from the client to the
worker stand the server's counter, the monitor that watches it, and one boolean at the worker that every server
overwrites.

- `lock_step`: the condition on the steps of a run (`Locked`) under which, once the notifications of the servers
  connected to a worker are through, the worker's blocked watch is true exactly when one of them has a non-zero
  counter; and under which no worker is about to begin a `Step` while a client that blocked it before the leader
  received that request has no advance request waiting.
- `first_notification_lost`: the monitor has no worker of its own at its first notification; it stores the worker and
  tells it nothing.
-/
import BigWorlds.LockStep.System

namespace BigWorlds.LockStep.Blocking

open BigWorlds.Core (run Along)

/-! ## What is to hold -/

def telling : Phase → Bool
  | .telling _ _ => true
  | _ => false

/-- a notification of the server is in flight: a change not looked at yet, or a `SetBlocking` not answered yet -/
def Notifying (server : Server) : Prop := server.unseen = true ∨ telling server.monitor.phase = true

instance (server : Server) : Decidable (Notifying server) := inferInstanceAs (Decidable (_ ∨ _))

/-- the server knows the worker, or the worker the server -/
def Connected (s : System) (w : WorkerId) (sv : ServerId) : Prop :=
  (s.server sv).worker = some w ∨ sv ∈ (s.worker w).servers

instance (s : System) (w : WorkerId) (sv : ServerId) : Decidable (Connected s w sv) :=
  inferInstanceAs (Decidable (_ ∨ _))

/-- the client of a server of the worker is registered and has no advance request waiting, and everything the server
had to tell is told -/
def Blocks (s : System) (w : WorkerId) (sv : ServerId) (c : ClientId) : Prop :=
  c ∈ (s.server sv).idle ∧ Connected s w sv ∧ ¬ Notifying (s.server sv)

instance (s : System) (w : WorkerId) (sv : ServerId) (c : ClientId) : Decidable (Blocks s w sv c) :=
  inferInstanceAs (Decidable (_ ∧ _ ∧ _))

/-- the step is sent to the worker, which has not begun it -/
def sentTo (w : WorkerId) : StepCall → Bool
  | .stepping workers pos => decide (w ∈ workers ∧ pos w = .sent)
  | _ => false

/-- the worker is about to begin the `k`-th step -/
def Begins (s : System) (k : ℕ) (w : WorkerId) : Prop := ∃ call ∈ s.steps[k]?, sentTo w call = true

instance (s : System) (k : ℕ) (w : WorkerId) : Decidable (Begins s k w) :=
  inferInstanceAs (Decidable (∃ call ∈ s.steps[k]?, _))

/-! ## The condition -/

/-- the step is still to begin at the worker -/
def toBegin (w : WorkerId) : StepCall → Bool
  | .received => true
  | .polling workers _ => decide (w ∈ workers)
  | .stepping workers pos => decide (w ∈ workers ∧ pos w = .sent)
  | .done => false

def isReached : Pc → Bool
  | .reached _ => true
  | _ => false

/-- the operation ends the wait of a call -/
def Restores (server : Server) : ClientOp → Prop
  | .next i => ∃ r ∈ server.calls[i]?, isReached r.pc = true
  | _ => False

instance (server : Server) (o : ClientOp) : Decidable (Restores server o) :=
  match o with
  | .next i => inferInstanceAs (Decidable (∃ r ∈ server.calls[i]?, isReached r.pc = true))
  | .register _ | .insertClient _ | .disconnect _ | .advanceRequest _ _ | .cancel | .dropped _ | .watchClosed _ =>
    .isFalse not_false

variable (home : ServerId → WorkerId)

/-- a server is connected to its own worker only, and while its counter is 0 or a notification is in flight -/
def Connects (s : System) (w : WorkerId) (sv : ServerId) : Prop :=
  w = home sv ∧ (Connected s w sv ∨ (s.server sv).blocked.value = 0 ∨ Notifying (s.server sv))

instance (s : System) (w : WorkerId) (sv : ServerId) : Decidable (Connects home s w sv) :=
  inferInstanceAs (Decidable (_ ∧ _))

/-- **The condition on a step.** Each server has one worker (`home`). The server's clients are orderly, and a wait ends
only when every step in flight has begun at the server's worker. The monitor looks at a non-zero counter only with a
worker of its own, or while the server is not connected. `SetBlocking` arrives, or finds its value there; when it lowers
the watch, the other servers connected to the worker have counters of 0. `IsBlocking` fails only at a worker that is not
blocked. -/
def Locked (s : System) : Op → Prop
  | .client sv o => (s.server sv).Orderly o ∧
      (Restores (s.server sv) o → ∀ call ∈ s.steps, toBegin (home sv) call = false)
  | .monitorWake sv => (s.server sv).monitor.worker ≠ none ∨ (s.server sv).blocked.value = 0 ∨
      ¬ Connected s (home sv) sv
  | .monitorTell sv delivered => ∀ w blocking, (s.server sv).monitor.phase = .telling w blocking →
      if delivered then
        blocking = false → ∀ sv', sv' ≠ sv → home sv' = home sv → Connected s w sv' → (s.server sv').blocked.value = 0
      else (s.worker w).blockedWatch = blocking
  | .setWorker sv w => Connects home s w sv
  | .insertServer w sv => Connects home s w sv
  | .isBlocking _ w reached => reached = false → (s.worker w).blockedWatch = false
  | _ => True

/-! ## The invariant -/

/-- where a server stands to its worker -/
structure Linked (w : WorkerId) (server : Server) : Prop where
  worker : ∀ v, server.worker = some v → v = w
  own : ∀ v, server.monitor.worker = some v → server.worker = some v
  telling : ∀ v blocking, server.monitor.phase = .telling v blocking → server.monitor.worker = some v
  told : server.monitor.told = true → server.monitor.worker ≠ none

/-- what the monitor has made of the counter; `table`: the worker has the server in its table -/
structure Noted (table : Prop) (server : Server) : Prop where
  seen : server.monitor.seen ≤ server.blocked.version
  sending : server.unseen = false → ∀ v blocking, server.monitor.phase = .telling v blocking →
    blocking = (server.blocked.value != 0)
  lowered : ¬ Notifying server → server.monitor.told = true → server.blocked.value ≠ 0
  raised : ¬ Notifying server → server.worker ≠ none ∨ table → server.blocked.value ≠ 0 → server.monitor.told = true

structure Inv (s : System) : Prop where
  counted : ∀ sv, (s.server sv).Inv
  linked : ∀ sv, Linked (home sv) (s.server sv)
  table : ∀ w sv, sv ∈ (s.worker w).servers → w = home sv
  noted : ∀ sv, Noted (sv ∈ (s.worker (home sv)).servers) (s.server sv)
  kept : ∀ sv, ¬ Notifying (s.server sv) → (s.server sv).monitor.told = true →
    (s.worker (home sv)).blockedWatch = true
  cause : ∀ w, (s.worker w).blockedWatch = true → ∃ sv, home sv = w ∧ (s.server sv).monitor.told = true

/-! ## One server -/

section Server

variable {w : WorkerId} {table : Prop} {server server' : Server}

theorem Linked.counterOnly (h : Linked w server) (hc : Server.CounterOnly server server') : Linked w server' where
  worker := by
    rw [hc.worker]
    exact h.worker
  own := by
    rw [hc.worker, hc.monitor]
    exact h.own
  telling := by
    rw [hc.monitor]
    exact h.telling
  told := by
    rw [hc.monitor]
    exact h.told

/-- a change of the counter is a notification in flight -/
theorem notifying_of_lt (hseen : server.monitor.seen ≤ server.blocked.version)
    (hc : Server.CounterOnly server server') (hlt : server.blocked.version < server'.blocked.version) :
    server'.unseen = true := by
  unfold Server.unseen
  rw [hc.monitor, bne_iff_ne]
  omega

theorem notifying_congr (hm : server'.monitor = server.monitor) (hb : server'.blocked = server.blocked) :
    Notifying server' ↔ Notifying server := by
  unfold Notifying Server.unseen
  rw [hm, hb]

theorem Noted.counterOnly (h : Noted table server) (hc : Server.CounterOnly server server') : Noted table server' := by
  rcases hc.blocked with hb | hlt
  · have hn := notifying_congr hc.monitor hb
    refine ⟨?_, ?_, ?_, ?_⟩
    · rw [hc.monitor, hb]
      exact h.seen
    · unfold Server.unseen
      rw [hc.monitor, hb]
      exact h.sending
    · rw [hn, hc.monitor, hb]
      exact h.lowered
    · rw [hn, hc.monitor, hc.worker, hb]
      exact h.raised
  · have hunseen := notifying_of_lt h.seen hc hlt
    refine ⟨?_, fun hf => ?_, fun hn => absurd (.inl hunseen) hn, fun hn => absurd (.inl hunseen) hn⟩
    · rw [hc.monitor]
      exact h.seen.trans hlt.le
    · rw [hunseen] at hf
      cases hf

theorem Linked.clockChangedTo (h : Linked w server) (clock : ℕ) : Linked w (server.clockChangedTo clock) :=
  ⟨h.worker, h.own, h.telling, h.told⟩

theorem Noted.clockChangedTo (h : Noted table server) (clock : ℕ) : Noted table (server.clockChangedTo clock) :=
  ⟨h.seen, h.sending, h.lowered, h.raised⟩

theorem Linked.monitorStart (h : Linked w server) : Linked w server.monitorStart := by
  unfold Server.monitorStart
  split
  · refine ⟨h.worker, fun _ hv => hv, nofun, fun ht => ?_⟩
    obtain ⟨v, hv⟩ := Option.ne_none_iff_exists'.mp (h.told ht)
    exact Option.ne_none_iff_exists'.mpr ⟨v, h.own v hv⟩
  · exact h

theorem notifying_monitorStart : Notifying server.monitorStart ↔ Notifying server := by
  unfold Server.monitorStart
  split
  · rename_i hp
    simp [Notifying, Server.unseen, Server.setMonitor, hp, Blocking.telling]
  · rfl

theorem Noted.monitorStart (h : Noted table server) : Noted table server.monitorStart := by
  have hn : Notifying server.monitorStart ↔ Notifying server := notifying_monitorStart
  unfold Server.monitorStart at hn ⊢
  split
  · rename_i hp
    rw [hp] at hn
    exact ⟨h.seen, nofun, fun h1 => h.lowered (hn.not.mp h1), fun h1 => h.raised (hn.not.mp h1)⟩
  · exact h

theorem Linked.monitorWake (h : Linked w server) : Linked w server.monitorWake := by
  unfold Server.monitorWake
  split
  · split_ifs
    · refine ⟨h.worker, h.own, fun v blocking hp => ?_, h.told⟩
      simp only [Server.setMonitor] at hp ⊢
      split at hp
      · rename_i v' hv'
        cases hp
        exact hv'
      · cases hp
    · exact h
  · exact h

theorem Noted.monitorWake (h : Noted table server) (hl : Linked w server)
    (hok : server.monitor.worker ≠ none ∨ server.blocked.value = 0 ∨ ¬ (server.worker ≠ none ∨ table)) :
    Noted table server.monitorWake := by
  unfold Server.monitorWake
  split
  · split_ifs
    · refine ⟨le_rfl, fun _ v blocking hp => ?_, fun hn ht => ?_, fun hn hc hv => ?_⟩
      · simp only [Server.setMonitor] at hp ⊢
        split at hp
        · cases hp
          rfl
        · cases hp
      · -- a monitor that has told something has a worker of its own, so it is telling now
        obtain ⟨v, hv⟩ := Option.ne_none_iff_exists'.mp (hl.told ht)
        refine absurd (.inr ?_) hn
        simp only [Server.setMonitor, hv]
        rfl
      · rcases hok with hw | h0 | hnc
        · obtain ⟨v, hv⟩ := Option.ne_none_iff_exists'.mp hw
          refine absurd (.inr ?_) hn
          simp only [Server.setMonitor, hv]
          rfl
        · exact absurd h0 hv
        · exact absurd hc hnc
    · exact h
  · exact h

theorem Linked.monitorTold (h : Linked w server) : Linked w server.monitorTold := by
  unfold Server.monitorTold
  split
  · rename_i v blocking hp
    refine ⟨h.worker, h.own, nofun, fun _ => ?_⟩
    exact Option.ne_none_iff_exists'.mpr ⟨v, h.telling v blocking hp⟩
  · exact h

theorem Noted.monitorTold (h : Noted table server) : Noted table server.monitorTold := by
  unfold Server.monitorTold
  split
  · rename_i v blocking hp
    -- without another change in the meantime, the value told is the value
    have htold : ∀ hn : ¬ Notifying (server.setMonitor { server.monitor with phase := .idle, told := blocking }),
        blocking = (server.blocked.value != 0) := by
      intro hn
      have hseen : server.unseen = false := Bool.eq_false_iff.mpr fun hu => hn (.inl hu)
      exact h.sending hseen v blocking hp
    refine ⟨h.seen, nofun, fun hn ht => ?_, fun hn _ hv => ?_⟩
    · have hb := htold hn
      simp only [Server.setMonitor] at ht
      rw [ht] at hb
      exact bne_iff_ne.mp hb.symm
    · exact (htold hn).trans (bne_iff_ne.mpr hv)
  · exact h

theorem Linked.monitorRefresh (h : Linked w server) (locked : Bool) : Linked w (server.monitorRefresh locked) := by
  unfold Server.monitorRefresh
  split
  · cases locked with
    | false => exact ⟨h.worker, h.own, nofun, h.told⟩
    | true =>
      refine ⟨h.worker, fun _ hv => hv, nofun, fun ht => ?_⟩
      obtain ⟨v, hv⟩ := Option.ne_none_iff_exists'.mp (h.told ht)
      exact Option.ne_none_iff_exists'.mpr ⟨v, h.own v hv⟩
  · exact h

theorem Noted.monitorRefresh (h : Noted table server) (locked : Bool) : Noted table (server.monitorRefresh locked) := by
  unfold Server.monitorRefresh
  split
  · rename_i hp
    have hn : Notifying (server.setMonitor { server.monitor with
        phase := .idle, worker := if locked then server.worker else server.monitor.worker }) ↔ Notifying server := by
      simp [Notifying, Server.unseen, Server.setMonitor, hp, Blocking.telling]
    exact ⟨h.seen, nofun, fun h1 => h.lowered (hn.not.mp h1), fun h1 => h.raised (hn.not.mp h1)⟩
  · exact h

theorem Linked.setWorker (h : Linked w server) : Linked w (server.setWorker w) := by
  refine ⟨fun v hv => (Option.some.inj hv).symm, fun v hv => ?_, h.telling, h.told⟩
  rw [h.worker v (h.own v hv)]
  rfl

/-- a connection is made: to a server connected already, or with nothing to tell, or still to be told -/
theorem Noted.connect {table' : Prop} (h : Noted table server) (hm : server'.monitor = server.monitor)
    (hb : server'.blocked = server.blocked)
    (hok : (server.worker ≠ none ∨ table) ∨ server.blocked.value = 0 ∨ Notifying server) : Noted table' server' := by
  have hn := notifying_congr hm hb
  refine ⟨?_, ?_, ?_, fun hnot _ hv => ?_⟩
  · rw [hm, hb]
    exact h.seen
  · unfold Server.unseen
    rw [hm, hb]
    exact h.sending
  · rw [hn, hm, hb]
    exact h.lowered
  · rw [hn] at hnot
    rw [hb] at hv
    rw [hm]
    rcases hok with hc | h0 | hno
    · exact h.raised hnot hc hv
    · exact absurd h0 hv
    · exact absurd hno hnot

end Server

/-! ## The invariant along a step -/

section Step

variable {home : ServerId → WorkerId} {s s' : System}

theorem connected_iff (h : Inv home s) {w : WorkerId} {sv : ServerId} :
    Connected s w sv ↔ w = home sv ∧ ((s.server sv).worker ≠ none ∨ sv ∈ (s.worker (home sv)).servers) := by
  constructor
  · rintro (hw | hw)
    · exact ⟨(h.linked sv).worker w hw, .inl (Option.ne_none_iff_exists'.mpr ⟨w, hw⟩)⟩
    · obtain rfl := h.table w sv hw
      exact ⟨rfl, .inr hw⟩
  · rintro ⟨rfl, hw | hw⟩
    · obtain ⟨v, hv⟩ := Option.ne_none_iff_exists'.mp hw
      exact .inl ((h.linked sv).worker v hv ▸ hv)
    · exact .inr hw

/-- a monitor that has told something is that of a connected server -/
theorem Inv.connected_of_told (h : Inv home s) {sv : ServerId} (ht : (s.server sv).monitor.told = true) :
    Connected s (home sv) sv := by
  obtain ⟨v, hv⟩ := Option.ne_none_iff_exists'.mp ((h.linked sv).told ht)
  exact (connected_iff h).mpr ⟨rfl, .inl (Option.ne_none_iff_exists'.mpr ⟨v, (h.linked sv).own v hv⟩)⟩

theorem Inv.congr (h : Inv home s) (hserver : s'.server = s.server)
    (hworker : ∀ w, (s'.worker w).servers = (s.worker w).servers ∧
      (s'.worker w).blockedWatch = (s.worker w).blockedWatch) : Inv home s' where
  counted := by
    rw [hserver]
    exact h.counted
  linked := by
    rw [hserver]
    exact h.linked
  table w sv := by
    rw [(hworker w).1]
    exact h.table w sv
  noted sv := by
    rw [hserver, (hworker _).1]
    exact h.noted sv
  kept sv := by
    rw [hserver, (hworker _).2]
    exact h.kept sv
  cause w := by
    rw [hserver, (hworker w).2]
    exact h.cause w

theorem Inv.onWorker (h : Inv home s) (w : WorkerId) {f : Worker → Worker}
    (hf : (f (s.worker w)).servers = (s.worker w).servers ∧
      (f (s.worker w)).blockedWatch = (s.worker w).blockedWatch) : Inv home (s.onWorker w f) := by
  refine h.congr rfl fun v => ?_
  by_cases hvw : v = w
  · subst hvw
    rw [s.worker_onWorker_self]
    exact hf
  · rw [s.worker_onWorker_ne f hvw]
    exact ⟨rfl, rfl⟩

/-- one server changes; what its monitor told last stays, and it does not fall silent having told something -/
theorem Inv.onServer (h : Inv home s) (sv : ServerId) {f : Server → Server} (hc : (f (s.server sv)).Inv)
    (hl : Linked (home sv) (f (s.server sv)))
    (hn : Noted (sv ∈ (s.worker (home sv)).servers) (f (s.server sv)))
    (ht : (f (s.server sv)).monitor.told = (s.server sv).monitor.told)
    (hk : ¬ Notifying (f (s.server sv)) → (s.server sv).monitor.told = true → ¬ Notifying (s.server sv)) :
    Inv home (s.onServer sv f) := by
  have hcase : ∀ P : ServerId → Server → Prop, P sv (f (s.server sv)) → (∀ sv', P sv' (s.server sv')) →
      ∀ sv', P sv' ((s.onServer sv f).server sv') := by
    intro P hself hother sv'
    by_cases hsv : sv' = sv
    · subst hsv
      rw [s.server_onServer_self]
      exact hself
    · rw [s.server_onServer_ne f hsv]
      exact hother sv'
  have htold : ∀ sv', ((s.onServer sv f).server sv').monitor.told = (s.server sv').monitor.told := by
    exact hcase (fun sv' server => server.monitor.told = (s.server sv').monitor.told) ht fun _ => rfl
  refine ⟨hcase (fun _ server => server.Inv) hc h.counted, hcase (fun sv' server => Linked (home sv') server) hl h.linked,
    h.table, hcase (fun sv' server => Noted (sv' ∈ (s.worker (home sv')).servers) server) hn h.noted, ?_, fun w hw => ?_⟩
  · refine hcase (fun sv' server => ¬ Notifying server → server.monitor.told = true →
      (s.worker (home sv')).blockedWatch = true) (fun hnot hto => ?_) h.kept
    rw [ht] at hto
    exact h.kept sv (hk hnot hto) hto
  · obtain ⟨sv', hhome, hto⟩ := h.cause w hw
    exact ⟨sv', hhome, (htold sv').trans hto⟩

theorem inv_setMonitor {server server' : Server} (h : server.Inv) (hm : ∃ m, server' = server.setMonitor m) :
    server'.Inv := by
  obtain ⟨m, rfl⟩ := hm
  exact ⟨h.counted, h.once, h.registered, h.unwrapped, h.fresh, h.disjoint⟩

theorem Inv.client (h : Inv home s) {sv : ServerId} {o : ClientOp} (hok : (s.server sv).Orderly o) :
    Inv home (s.onServer sv fun server => server.clientStep o) := by
  have hc := (s.server sv).counterOnly_clientStep o
  refine h.onServer sv ((h.counted sv).clientStep hok) ((h.linked sv).counterOnly hc) ((h.noted sv).counterOnly hc)
    (congrArg Monitor.told hc.monitor) fun hnot _ => ?_
  rcases hc.blocked with hb | hlt
  · rwa [notifying_congr hc.monitor hb] at hnot
  · exact absurd (.inl (notifying_of_lt (h.noted sv).seen hc hlt)) hnot

theorem Inv.monitorWake (h : Inv home s) {sv : ServerId} (hok : Locked home s (.monitorWake sv)) :
    Inv home (s.onServer sv Server.monitorWake) := by
  have hok' : (s.server sv).monitor.worker ≠ none ∨ (s.server sv).blocked.value = 0 ∨
      ¬ ((s.server sv).worker ≠ none ∨ sv ∈ (s.worker (home sv)).servers) :=
    hok.imp_right fun hor => hor.imp_right fun hnc hc => hnc ((connected_iff h).mpr ⟨rfl, hc⟩)
  have hl := (h.linked sv).monitorWake
  refine h.onServer sv (inv_setMonitor (h.counted sv) (s.server sv).monitorWake_eq) hl
    ((h.noted sv).monitorWake (h.linked sv) hok') ?_ fun hnot ht => ?_
  · unfold Server.monitorWake
    split
    · split_ifs <;> rfl
    · rfl
  · -- with a worker of its own the monitor is telling after it woke
    obtain ⟨v, hv⟩ := Option.ne_none_iff_exists'.mp ((h.linked sv).told ht)
    unfold Server.monitorWake at hnot
    split at hnot
    · split_ifs at hnot
      · refine absurd (.inr ?_) hnot
        simp only [Server.setMonitor, hv]
        rfl
      · exact hnot
    · exact hnot

theorem Inv.monitorTell (h : Inv home s) {sv : ServerId} {w : WorkerId} {blocking delivered : Bool}
    (hphase : (s.server sv).monitor.phase = .telling w blocking) (hok : Locked home s (.monitorTell sv delivered)) :
    Inv home (s.told sv w blocking delivered) := by
  have hok := hok w blocking hphase
  have hw : w = home sv :=
    (h.linked sv).worker w ((h.linked sv).own w ((h.linked sv).telling w blocking hphase))
  have htold : (s.server sv).monitorTold.monitor.told = blocking := by
    simp only [Server.monitorTold, hphase, Server.setMonitor]
  have hself := s.server_told_self sv w blocking delivered
  have hother : ∀ sv', sv' ≠ sv → (s.told sv w blocking delivered).server sv' = s.server sv' :=
    fun sv' => s.server_told_ne w blocking delivered
  have hothers : ∀ v, v ≠ w → (s.told sv w blocking delivered).worker v = s.worker v :=
    fun v => s.worker_told_ne sv blocking delivered
  -- the worker's watch afterwards has the value told
  have hwatch : ((s.told sv w blocking delivered).worker w).blockedWatch = blocking := by
    cases delivered with
    | false => exact hok
    | true => exact congrArg Worker.blockedWatch (s.worker_told_self sv w blocking)
  have hservers : ∀ v, ((s.told sv w blocking delivered).worker v).servers = (s.worker v).servers := by
    intro v
    by_cases hv : v = w
    · subst hv
      cases delivered with
      | false => rfl
      | true => rw [s.worker_told_self sv v blocking]
    · rw [hothers v hv]
  refine ⟨fun sv' => ?_, fun sv' => ?_, fun v sv' => ?_, fun sv' => ?_, fun sv' hnot hto => ?_, fun v hv => ?_⟩
  · by_cases hsv : sv' = sv
    · subst hsv
      rw [hself]
      exact inv_setMonitor (h.counted sv') (s.server sv').monitorTold_eq
    · rw [hother sv' hsv]
      exact h.counted sv'
  · by_cases hsv : sv' = sv
    · subst hsv
      rw [hself]
      exact (h.linked sv').monitorTold
    · rw [hother sv' hsv]
      exact h.linked sv'
  · rw [hservers v]
    exact h.table v sv'
  · rw [hservers]
    by_cases hsv : sv' = sv
    · subst hsv
      rw [hself]
      exact (h.noted sv').monitorTold
    · rw [hother sv' hsv]
      exact h.noted sv'
  · by_cases hsv : sv' = sv
    · subst hsv
      rw [hself, htold] at hto
      rw [← hw, hwatch, hto]
    · rw [hother sv' hsv] at hnot hto
      by_cases hhome : home sv' = w
      · rw [hhome, hwatch]
        cases blocking with
        | true => rfl
        | false =>
          cases delivered with
          | false =>
            -- the value was there already
            rw [← hhome] at hok
            exact hok.symm.trans (h.kept sv' hnot hto)
          | true =>
            -- lowering the watch is allowed only when the others have nothing to hold it up
            have hzero := hok rfl sv' hsv (hhome.trans hw) (hhome ▸ h.connected_of_told hto)
            exact absurd hzero ((h.noted sv').lowered hnot hto)
      · rw [hothers _ hhome]
        exact h.kept sv' hnot hto
  · by_cases hvw : v = w
    · subst hvw
      rw [hwatch] at hv
      exact ⟨sv, hw.symm, by rw [hself, htold, hv]⟩
    · rw [hothers v hvw] at hv
      obtain ⟨sv', hhome, hto⟩ := h.cause v hv
      have hsv : sv' ≠ sv := fun he => hvw (by rw [← hhome, he, ← hw])
      exact ⟨sv', hhome, by rw [hother sv' hsv, hto]⟩

theorem Inv.insertServer (h : Inv home s) {w : WorkerId} {sv : ServerId} (hok : Connects home s w sv) :
    Inv home (s.onWorker w fun wk => { wk with servers := insert sv wk.servers }) := by
  obtain ⟨rfl, hok⟩ := hok
  have hself := s.worker_onWorker_self (home sv) fun wk => { wk with servers := insert sv wk.servers }
  have hblocked : ∀ v, ((s.onWorker (home sv) fun wk => { wk with servers := insert sv wk.servers }).worker v).blockedWatch =
      (s.worker v).blockedWatch := by
    intro v
    by_cases hv : v = home sv
    · rw [hv, hself]
    · rw [s.worker_onWorker_ne _ hv]
  refine ⟨h.counted, h.linked, fun v sv' hmem => ?_, fun sv' => ?_, fun sv' => ?_, fun v => ?_⟩
  · by_cases hv : v = home sv
    · rw [hv, hself] at hmem
      rcases Finset.mem_insert.mp hmem with rfl | hmem
      · exact hv
      · rw [hv]
        exact h.table _ sv' hmem
    · rw [s.worker_onWorker_ne _ hv] at hmem
      exact h.table v sv' hmem
  · by_cases hsv : sv' = sv
    · subst hsv
      refine (h.noted sv').connect rfl rfl (hok.imp_left fun hc => ?_)
      exact ((connected_iff h).mp hc).2
    · by_cases hv : home sv' = home sv
      · rw [hv, hself, Finset.mem_insert, or_iff_right hsv, ← hv]
        exact h.noted sv'
      · rw [s.worker_onWorker_ne _ hv]
        exact h.noted sv'
  · rw [hblocked]
    exact h.kept sv'
  · rw [hblocked]
    exact h.cause v

theorem Inv.effect {o : Op} (h : Inv home s) (hok : Locked home s o) (he : s.Effect o s') : Inv home s' := by
  cases he with
  | none => exact h
  | client sv o => exact h.client hok.1
  | monitorStart sv =>
    refine h.onServer sv (inv_setMonitor (h.counted sv) (s.server sv).monitorStart_eq) (h.linked sv).monitorStart
      (h.noted sv).monitorStart ?_ fun hnot _ => notifying_monitorStart.not.1 hnot
    unfold Server.monitorStart
    split <;> rfl
  | monitorWake sv => exact h.monitorWake hok
  | monitorTell sv w blocking delivered hphase => exact h.monitorTell hphase hok
  | monitorRefresh sv locked =>
    refine h.onServer sv (inv_setMonitor (h.counted sv) ((s.server sv).monitorRefresh_eq locked))
      ((h.linked sv).monitorRefresh locked) ((h.noted sv).monitorRefresh locked) ?_ fun hnot _ => ?_
    · unfold Server.monitorRefresh
      split <;> rfl
    · unfold Server.monitorRefresh at hnot
      split at hnot
      · rename_i hp
        simpa [Notifying, Server.unseen, Server.setMonitor, hp, telling] using hnot
      · exact hnot
  | setWorker sv w =>
    obtain ⟨rfl, hok⟩ := hok
    have hc := h.counted sv
    refine h.onServer sv ⟨hc.counted, hc.once, hc.registered, hc.unwrapped, hc.fresh, hc.disjoint⟩
      (h.linked sv).setWorker ((h.noted sv).connect rfl rfl (hok.imp_left fun hc => ?_)) rfl fun hnot _ => hnot
    exact ((connected_iff h).mp hc).2
  | insertServer w sv => exact h.insertServer hok
  | addBehavior w b => exact h.onWorker w ⟨rfl, rfl⟩
  | addMachine w b => exact h.onWorker w ⟨rfl, rfl⟩
  | setClockWatch k w workers pos currentClock hk hw hp =>
    exact (h.onWorker (f := fun wk => { wk with clockWatch := currentClock + 1 }) w ⟨rfl, rfl⟩).congr rfl
      fun _ => ⟨rfl, rfl⟩
  | tell k w workers pos sv newClock todo hk hw hp =>
    exact (h.onServer (f := fun server => server.clockChangedTo newClock) sv ((h.counted sv).clockChangedTo newClock)
      ((h.linked sv).clockChangedTo newClock) ((h.noted sv).clockChangedTo newClock) rfl fun hnot _ => hnot).congr rfl
      fun _ => ⟨rfl, rfl⟩
  | resetClock j w ok call =>
    exact (h.onWorker (f := fun wk => { wk with clockWatch := 0 }) w ⟨rfl, rfl⟩).congr rfl fun _ => ⟨rfl, rfl⟩
  | _ => exact h.congr rfl fun _ => ⟨rfl, rfl⟩

end Step

/-! ## A client that holds its worker back -/

section Hold

variable {home : ServerId → WorkerId} {s s' : System} {k : ℕ} {sv : ServerId} {c : ClientId}

/-- the worker has answered the poll of the step -/
def askedAt (w : WorkerId) : StepCall → Bool
  | .received => false
  | .polling _ ready => decide (w ∈ ready)
  | .stepping _ _ | .done => true

/-- the worker knows that it is blocked, and has not answered the poll of the step -/
structure Holding (home : ServerId → WorkerId) (sv : ServerId) (s : System) (call : StepCall) : Prop where
  told : (s.server sv).monitor.told = true
  telling : ∀ w blocking, (s.server sv).monitor.phase = .telling w blocking → blocking = true
  watch : (s.worker (home sv)).blockedWatch = true
  asked : askedAt (home sv) call = false

/-- since the step was requested: the worker has begun it, or the client is gone or waits, or the worker is held back -/
structure Guard (home : ServerId → WorkerId) (k : ℕ) (sv : ServerId) (c : ClientId) (s : System) : Prop where
  gone : (s.server sv).Gone c
  held : ∃ call, s.steps[k]? = some call ∧ (toBegin (home sv) call = false ∨ c ∉ blockers (s.server sv).clients ∨
    (s.server sv).Awaits c ∨ Holding home sv s call)

theorem mem_idle {server : Server} {c : ClientId} : c ∈ server.idle ↔ c ∈ blockers server.clients ∧ ¬ server.Awaits c :=
  Finset.mem_filter

/-- the counter of a server with an idle client is not 0 -/
theorem Inv.value_ne_zero (h : Inv home s) (hc : c ∈ blockers (s.server sv).clients) (ha : ¬ (s.server sv).Awaits c) :
    (s.server sv).blocked.value ≠ 0 := (h.counted sv).blocked_ne_zero (mem_idle.2 ⟨hc, ha⟩)

/-- the monitor or the worker's watch may move, with the held worker still held -/
theorem Guard.congr (h : Guard home k sv c s) (hsteps : s'.steps = s.steps)
    (hgone : (s.server sv).Gone c → (s'.server sv).Gone c)
    (hclients : (s'.server sv).clients = (s.server sv).clients) (hcalls : (s'.server sv).calls = (s.server sv).calls)
    (hheld : ∀ call, c ∈ blockers (s.server sv).clients → ¬ (s.server sv).Awaits c → Holding home sv s call →
      Holding home sv s' call) : Guard home k sv c s' := by
  obtain ⟨call, hcall, hor⟩ := h.held
  have hawaits : (s'.server sv).Awaits c ↔ (s.server sv).Awaits c := by
    unfold Server.Awaits
    rw [hcalls]
  refine ⟨hgone h.gone, call, by rw [hsteps, hcall], ?_⟩
  rw [hclients, hawaits]
  by_cases hc : c ∈ blockers (s.server sv).clients
  · by_cases ha : (s.server sv).Awaits c
    · exact .inr (.inr (.inl ha))
    · exact hor.imp_right fun h1 => h1.imp_right fun h2 => h2.imp_right (hheld call hc ha)
  · exact .inr (.inl hc)

/-- a step moves on -/
theorem Guard.setStep (h : Guard home k sv c s) {j : ℕ} {a b : StepCall} (hj : s.steps[j]? = some a)
    (hb : toBegin (home sv) a = false → toBegin (home sv) b = false)
    (hheld : Holding home sv s a → toBegin (home sv) b = false ∨ askedAt (home sv) b = false) :
    Guard home k sv c (s.setStep j b) := by
  obtain ⟨call, hcall, hor⟩ := h.held
  refine ⟨h.gone, ?_⟩
  by_cases hjk : j = k
  · subst hjk
    obtain rfl : a = call := Option.some.inj (hj.symm.trans hcall)
    obtain ⟨hlt, -⟩ := List.getElem?_eq_some_iff.mp hj
    refine ⟨b, List.getElem?_set_self hlt, ?_⟩
    rcases hor with h0 | h1 | h2 | h3
    · exact .inl (hb h0)
    · exact .inr (.inl h1)
    · exact .inr (.inr (.inl h2))
    · rcases hheld h3 with h0 | h4
      · exact .inl h0
      · exact .inr (.inr (.inr ⟨h3.told, h3.telling, h3.watch, h4⟩))
  · refine ⟨call, (List.getElem?_set_ne hjk).trans hcall, ?_⟩
    exact hor.imp_right fun h1 => h1.imp_right fun h2 => h2.imp_right fun h3 => ⟨h3.told, h3.telling, h3.watch, h3.asked⟩

theorem toBegin_update {w v : WorkerId} {workers : Finset WorkerId} {pos : WorkerId → StepAt} {p : StepAt}
    (hp : p = .sent → pos w = .sent) (h : toBegin v (.stepping workers pos) = false) :
    toBegin v (.stepping workers (Function.update pos w p)) = false := by
  simp only [toBegin, decide_eq_false_iff_not, not_and] at h ⊢
  intro hv
  by_cases hvw : v = w
  · subst hvw
    rw [Function.update_self]
    exact fun he => h hv (hp he)
  · rw [Function.update_of_ne hvw]
    exact h hv

theorem after_ne_sent {wk : Worker} {o : StepOp} {p : StepAt} (h : p.after wk o = .sent) : p = .sent := by
  cases o with
  | next =>
    cases p with
    | telling newClock todo =>
      simp only [StepAt.after, StepAt.next] at h
      split_ifs at h
    | joining todo all => cases todo <;> cases h
    | machines todo all => cases todo <;> cases h
    | _ => cases h
  | tell server reached => cases p <;> first | rfl | cases h
  | join i answered => cases p <;> first | rfl | cases h
  | fail =>
    cases p with
    | machines todo all => cases todo <;> cases h
    | _ => cases h

theorem Guard.moved (h : Guard home k sv c s) {j : ℕ} {w : WorkerId} {workers : Finset WorkerId}
    {pos : WorkerId → StepAt} {p : StepAt} (hj : s.steps[j]? = some (.stepping workers pos))
    (hp : p = .sent → pos w = .sent) : Guard home k sv c (s.moved j w workers pos p) :=
  h.setStep hj (toBegin_update hp) fun hheld => nomatch hheld.asked

/-- a client's operation: the client goes on waiting, or every step in flight has begun at its worker -/
theorem Guard.client (h : Guard home k sv c s) {sv' : ServerId} {o : ClientOp} (hok : Locked home s (.client sv' o)) :
    Guard home k sv c (s.onServer sv' fun server => server.clientStep o) := by
  by_cases hsv : sv = sv'
  · subst hsv
    obtain ⟨call, hcall, hor⟩ := h.held
    obtain ⟨hgone, hblockers⟩ := h.gone.clientStep o
    have hserver := s.server_onServer_self sv fun server => server.clientStep o
    have hmonitor := ((s.server sv).counterOnly_clientStep o).monitor
    refine ⟨by rw [hserver]; exact hgone, call, hcall, ?_⟩
    rw [hserver]
    rcases hor with h0 | h1 | h2 | h3
    · exact .inl h0
    · exact .inr (.inl (hblockers h1))
    · by_cases hrestores : Server.Awaits ((s.server sv).clientStep o) c
      · exact .inr (.inr (.inl hrestores))
      · -- the wait has ended, so every step has begun at the worker
        refine .inl (hok.2 ?_ call (List.mem_of_getElem? hcall))
        by_contra hnot
        refine hrestores (h2.clientStep hok.1 fun i ho r hr targetClock hpc => hnot ?_)
        subst ho
        exact ⟨r, hr, by rw [hpc]; rfl⟩
    · refine .inr (.inr (.inr ⟨?_, ?_, h3.watch, h3.asked⟩))
      · rw [hserver, hmonitor]
        exact h3.told
      · rw [hserver, hmonitor]
        exact h3.telling
  · have hserver := s.server_onServer_ne (fun server => server.clientStep o) hsv
    refine h.congr rfl (by rw [hserver]; exact id) (by rw [hserver]) (by rw [hserver]) fun call _ _ hheld => ?_
    exact ⟨by rw [hserver]; exact hheld.told, by rw [hserver]; exact hheld.telling, hheld.watch, hheld.asked⟩

/-- the monitor of some server moves -/
theorem Guard.monitor (h : Guard home k sv c s) {sv' : ServerId} {f : Server → Server}
    (hf : ∃ m, f (s.server sv') = (s.server sv').setMonitor m)
    (hheld : sv = sv' → c ∈ blockers (s.server sv).clients → ¬ (s.server sv).Awaits c →
      (s.server sv).monitor.told = true →
      (∀ w blocking, (s.server sv).monitor.phase = .telling w blocking → blocking = true) →
      (f (s.server sv')).monitor.told = true ∧
        ∀ w blocking, (f (s.server sv')).monitor.phase = .telling w blocking → blocking = true) :
    Guard home k sv c (s.onServer sv' f) := by
  by_cases hsv : sv = sv'
  · subst hsv
    have hserver := s.server_onServer_self sv f
    obtain ⟨m, hm⟩ := hf
    refine h.congr rfl ?_ ?_ ?_ fun call hc ha hh => ?_
    · rw [hserver, hm]
      exact id
    · rw [hserver, hm]
      rfl
    · rw [hserver, hm]
      rfl
    · obtain ⟨ht, hp⟩ := hheld rfl hc ha hh.told hh.telling
      exact ⟨by rw [hserver]; exact ht, by rw [hserver]; exact hp, hh.watch, hh.asked⟩
  · have hserver := s.server_onServer_ne f hsv
    refine h.congr rfl (by rw [hserver]; exact id) (by rw [hserver]) (by rw [hserver]) fun call _ _ hh => ?_
    exact ⟨by rw [hserver]; exact hh.told, by rw [hserver]; exact hh.telling, hh.watch, hh.asked⟩

theorem Guard.tell (h : Guard home k sv c s) (hi : Inv home s) {sv' : ServerId} {w : WorkerId}
    {blocking delivered : Bool} (hphase : (s.server sv').monitor.phase = .telling w blocking)
    (hok : Locked home s (.monitorTell sv' delivered)) : Guard home k sv c (s.told sv' w blocking delivered) := by
  have hok := hok w blocking hphase
  have hw : w = home sv' :=
    (hi.linked sv').worker w ((hi.linked sv').own w ((hi.linked sv').telling w blocking hphase))
  have hsteps : (s.told sv' w blocking delivered).steps = s.steps := by cases delivered <;> rfl
  -- a watch that holds the client's worker back stays true
  have hwatch : (sv = sv' → blocking = true) → c ∈ blockers (s.server sv).clients → ¬ (s.server sv).Awaits c →
      (s.server sv).monitor.told = true → (s.worker (home sv)).blockedWatch = true →
      ((s.told sv' w blocking delivered).worker (home sv)).blockedWatch = true := by
    intro hb hc ha ht hkept
    cases delivered with
    | false => exact hkept
    | true =>
      by_cases hv : home sv = w
      · rw [hv, s.worker_told_self]
        cases blocking with
        | true => rfl
        | false =>
          have hne : sv ≠ sv' := fun he => nomatch hb he
          exact absurd (hok rfl sv hne (hv.trans hw) (hv ▸ hi.connected_of_told ht)) (hi.value_ne_zero hc ha)
      · rw [s.worker_told_ne sv' blocking true hv]
        exact hkept
  by_cases hsv : sv = sv'
  · subst hsv
    have hserver := s.server_told_self sv w blocking delivered
    obtain ⟨m, hm⟩ := (s.server sv).monitorTold_eq
    refine h.congr hsteps ?_ ?_ ?_ fun call hc ha hh => ?_
    · rw [hserver, hm]
      exact id
    · rw [hserver, hm]
      rfl
    · rw [hserver, hm]
      rfl
    · have hb := hh.telling w blocking hphase
      refine ⟨?_, ?_, hwatch (fun _ => hb) hc ha hh.told hh.watch, hh.asked⟩
      · rw [hserver]
        simpa only [Server.monitorTold, hphase, Server.setMonitor] using hb
      · rw [hserver]
        simp only [Server.monitorTold, hphase, Server.setMonitor]
        exact nofun
  · have hserver := s.server_told_ne w blocking delivered hsv
    refine h.congr hsteps (by rw [hserver]; exact id) (by rw [hserver]) (by rw [hserver]) fun call hc ha hh => ?_
    refine ⟨by rw [hserver]; exact hh.told, by rw [hserver]; exact hh.telling, ?_, hh.asked⟩
    exact hwatch (fun he => absurd he hsv) hc ha hh.told hh.watch

theorem Guard.onWorker (h : Guard home k sv c s) (w : WorkerId) {f : Worker → Worker}
    (hf : ∀ wk, (f wk).blockedWatch = wk.blockedWatch) : Guard home k sv c (s.onWorker w f) := by
  refine h.congr rfl id rfl rfl fun call _ _ hh => ⟨hh.told, hh.telling, ?_, hh.asked⟩
  by_cases hv : home sv = w
  · rw [hv, s.worker_onWorker_self, hf, ← hv]
    exact hh.watch
  · rw [s.worker_onWorker_ne f hv]
    exact hh.watch

theorem Guard.poll (h : Guard home k sv c s) {j : ℕ} {w : WorkerId} {reached : Bool} {workers ready : Finset WorkerId}
    (hj : s.steps[j]? = some (.polling workers ready)) (hb : reached = true → (s.worker w).blockedWatch = false)
    (hok : reached = false → (s.worker w).blockedWatch = false) :
    Guard home k sv c (s.setStep j (.polling workers (insert w ready))) := by
  have hfree : (s.worker w).blockedWatch = false := by
    cases reached with
    | false => exact hok rfl
    | true => exact hb rfl
  refine h.setStep hj id fun hh => .inr ?_
  have hne : home sv ≠ w := by
    intro he
    have hwatch := hh.watch
    rw [he, hfree] at hwatch
    cases hwatch
  have hasked := hh.asked
  simp only [askedAt, decide_eq_false_iff_not, Finset.mem_insert, not_or] at hasked ⊢
  exact ⟨hne, hasked⟩

theorem Guard.effect {o : Op} (h : Guard home k sv c s) (hi : Inv home s) (hok : Locked home s o)
    (he : s.Effect o s') : Guard home k sv c s' := by
  cases he with
  | none => exact h
  | client sv' o => exact h.client hok
  | monitorStart sv' =>
    refine h.monitor (s.server sv').monitorStart_eq fun hsv _ _ ht hp => ?_
    subst hsv
    unfold Server.monitorStart
    split
    · exact ⟨ht, nofun⟩
    · exact ⟨ht, hp⟩
  | monitorWake sv' =>
    refine h.monitor (s.server sv').monitorWake_eq fun hsv hc ha ht hp => ?_
    subst hsv
    unfold Server.monitorWake
    split
    · split_ifs
      · refine ⟨ht, fun w blocking hphase => ?_⟩
        simp only [Server.setMonitor] at hphase
        split at hphase
        · cases hphase
          exact bne_iff_ne.mpr (hi.value_ne_zero hc ha)
        · cases hphase
      · exact ⟨ht, hp⟩
    · exact ⟨ht, hp⟩
  | monitorTell sv' w blocking delivered hphase => exact h.tell hi hphase hok
  | monitorRefresh sv' locked =>
    refine h.monitor ((s.server sv').monitorRefresh_eq locked) fun hsv _ _ ht hp => ?_
    subst hsv
    unfold Server.monitorRefresh
    split
    · exact ⟨ht, nofun⟩
    · exact ⟨ht, hp⟩
  | setWorker sv' w =>
    by_cases hsv : sv = sv'
    · subst hsv
      have hserver := s.server_onServer_self sv fun server => server.setWorker w
      refine h.congr rfl (by rw [hserver]; exact id) (by rw [hserver]; rfl) (by rw [hserver]; rfl) fun call _ _ hh => ?_
      exact ⟨by rw [hserver]; exact hh.told, by rw [hserver]; exact hh.telling, hh.watch, hh.asked⟩
    · have hserver := s.server_onServer_ne (fun server => server.setWorker w) hsv
      refine h.congr rfl (by rw [hserver]; exact id) (by rw [hserver]) (by rw [hserver]) fun call _ _ hh => ?_
      exact ⟨by rw [hserver]; exact hh.told, by rw [hserver]; exact hh.telling, hh.watch, hh.asked⟩
  | insertServer w sv' => exact h.onWorker w fun _ => rfl
  | addBehavior w b => exact h.onWorker w fun _ => rfl
  | addMachine w b => exact h.onWorker w fun _ => rfl
  | stepRequest =>
    obtain ⟨call, hcall, hor⟩ := h.held
    obtain ⟨hlt, -⟩ := List.getElem?_eq_some_iff.mp hcall
    refine ⟨h.gone, call, (List.getElem?_append_left hlt).trans hcall, ?_⟩
    exact hor.imp_right fun h1 => h1.imp_right fun h2 => h2.imp_right fun hh => ⟨hh.told, hh.telling, hh.watch, hh.asked⟩
  | noWorkers j hj hw => exact h.setStep hj (fun _ => rfl) fun _ => .inl rfl
  | getWorkers j hj hw => exact h.setStep hj nofun fun _ => .inr rfl
  | isBlocking j w reached workers ready hj hw hb => exact h.poll hj hb hok
  | sendSteps j workers hj =>
    have hout : home sv ∉ workers → toBegin (home sv) (.stepping workers fun _ => .sent) = false := by
      intro hn
      simp [toBegin, hn]
    refine h.setStep hj (fun h0 => hout (of_decide_eq_false h0)) fun hh => .inl (hout ?_)
    exact of_decide_eq_false hh.asked
  | setClockWatch j w workers pos currentClock hj hw hp =>
    exact (h.onWorker (f := fun wk => { wk with clockWatch := currentClock + 1 }) w fun _ => rfl).moved hj nofun
  | tell j w workers pos sv' newClock todo hj hw hp =>
    refine Guard.moved ?_ hj nofun
    by_cases hsv : sv = sv'
    · subst hsv
      have hserver := s.server_onServer_self sv fun server => server.clockChangedTo newClock
      refine h.congr rfl (by rw [hserver]; exact id) (by rw [hserver]; rfl) (by rw [hserver]; rfl) fun call _ _ hh => ?_
      exact ⟨by rw [hserver]; exact hh.told, by rw [hserver]; exact hh.telling, hh.watch, hh.asked⟩
    · have hserver := s.server_onServer_ne (fun server => server.clockChangedTo newClock) hsv
      refine h.congr rfl (by rw [hserver]; exact id) (by rw [hserver]) (by rw [hserver]) fun call _ _ hh => ?_
      exact ⟨by rw [hserver]; exact hh.told, by rw [hserver]; exact hh.telling, hh.watch, hh.asked⟩
  | worker j w o workers pos hj hw hset => exact h.moved hj after_ne_sent
  | incrementClock j workers pos hj hended =>
    have hdone := h.setStep (b := .done) hj (fun _ => rfl) fun _ => .inl rfl
    exact hdone.congr rfl id rfl rfl fun call _ _ hh => ⟨hh.told, hh.telling, hh.watch, hh.asked⟩
  | resetClock j w ok call =>
    have hreset := h.onWorker (f := fun wk => { wk with clockWatch := 0 }) w fun _ => rfl
    exact hreset.congr rfl id rfl rfl fun call _ _ hh => ⟨hh.told, hh.telling, hh.watch, hh.asked⟩
  | _ => exact h.congr rfl id rfl rfl fun call _ _ hh => ⟨hh.told, hh.telling, hh.watch, hh.asked⟩

/-- the step is requested while the client holds its worker back -/
theorem guard_request (hi : Inv home s) {w : WorkerId} (hb : Blocks s w sv c) :
    w = home sv ∧ Guard home s.steps.length sv c (s.step .stepRequest) := by
  obtain ⟨hidle, hconn, hquiet⟩ := hb
  obtain ⟨hw, hconn⟩ := (connected_iff hi).mp hconn
  obtain ⟨hc, ha⟩ := mem_idle.1 hidle
  have hmem : c ∈ (s.server sv).clients := Finmap.mem_of_lookup_eq_some (Server.mem_blockers.1 hc)
  have htold := (hi.noted sv).raised hquiet hconn (hi.value_ne_zero hc ha)
  refine ⟨hw, ⟨fun hr => (hi.counted sv).disjoint c hr hmem, (hi.counted sv).fresh c (.inl hmem)⟩, .received, ?_, ?_⟩
  · exact List.getElem?_concat_length
  · refine .inr (.inr (.inr ⟨htold, fun v blocking hp => absurd (.inr ?_) hquiet, hi.kept sv hquiet htold, rfl⟩))
    exact congrArg telling hp

/-- where the client holds its worker back, the worker does not begin the step -/
theorem Guard.not_idle (h : Guard home k sv c s) (hbegins : Begins s k (home sv)) : c ∉ (s.server sv).idle := by
  obtain ⟨call, hcall, hor⟩ := h.held
  obtain ⟨call', hcall', hsent⟩ := hbegins
  obtain rfl : call' = call := Option.some.inj (hcall'.symm.trans hcall)
  intro hidle
  obtain ⟨hc, ha⟩ := mem_idle.1 hidle
  cases call' with
  | stepping workers pos =>
    rcases hor with h0 | h1 | h2 | h3
    · exact absurd (of_decide_eq_true hsent) (of_decide_eq_false h0)
    · exact h1 hc
    · exact ha h2
    · cases h3.asked
  | _ => cases hsent

end Hold

/-! ## Runs -/

/-- once the notifications of the servers connected to a worker are through, its blocked watch is true exactly when one
of them has a non-zero counter -/
theorem Inv.blocked_iff {home : ServerId → WorkerId} {s : System} (h : Inv home s) {w : WorkerId}
    (hq : ∀ sv, Connected s w sv → ¬ Notifying (s.server sv)) :
    (s.worker w).blockedWatch = true ↔ ∃ sv, Connected s w sv ∧ (s.server sv).blocked.value ≠ 0 := by
  constructor
  · intro hb
    obtain ⟨sv, rfl, ht⟩ := h.cause w hb
    have hconn := h.connected_of_told ht
    exact ⟨sv, hconn, (h.noted sv).lowered (hq sv hconn) ht⟩
  · rintro ⟨sv, hconn, hv⟩
    obtain ⟨rfl, hside⟩ := (connected_iff h).mp hconn
    exact h.kept sv (hq sv hconn) ((h.noted sv).raised (hq sv hconn) hside hv)

theorem Inv.step {home : ServerId → WorkerId} (s : System) (o : Op) (h : Inv home s) (hok : Locked home s o) :
    Inv home (s.step o) := h.effect hok (s.step_effect o)

theorem inv_start (home : ServerId → WorkerId) : Inv home System.start where
  counted _ := Server.inv_spawn
  linked _ := ⟨nofun, nofun, nofun, nofun⟩
  table _ _ hmem := absurd hmem (Finset.notMem_empty _)
  noted _ := ⟨le_rfl, nofun, nofun, fun _ _ hv => absurd rfl hv⟩
  kept _ _ := nofun
  cause _ := nofun

/-- **Lock-step.** In every run whose steps all meet the condition: a worker's blocked watch is true exactly when one of
its servers has a non-zero counter, once their notifications are through; and a worker that is about to begin a step
has no server with an idle client that blocked it, all told, before that step was requested. -/
theorem lock_step (home : ServerId → WorkerId) (ops : List Op)
    (hok : Along System.step (Locked home) System.start ops) :
    (∀ w, (∀ sv, Connected (run System.step System.start ops) w sv →
        ¬ Notifying ((run System.step System.start ops).server sv)) →
      (((run System.step System.start ops).worker w).blockedWatch = true ↔
        ∃ sv, Connected (run System.step System.start ops) w sv ∧
          ((run System.step System.start ops).server sv).blocked.value ≠ 0)) ∧
    ∀ before after w sv c, ops = before ++ .stepRequest :: after →
      Blocks (run System.step System.start before) w sv c →
      Begins (run System.step System.start ops) (run System.step System.start before).steps.length w →
      c ∉ ((run System.step System.start ops).server sv).idle := by
  refine ⟨fun w hq => (Core.run_inv Inv.step (inv_start home) hok).blocked_iff hq, ?_⟩
  rintro before after w sv c rfl hblocks hbegins
  set s := run System.step System.start before with hs
  have hinv : Inv home s := Core.run_inv Inv.step (inv_start home) hok.take
  obtain ⟨rfl, hguard⟩ := guard_request hinv hblocks
  rw [Core.run_append, ← hs, Core.run_cons] at hbegins ⊢
  obtain ⟨hfirst, hrest⟩ := hok.drop
  rw [← hs] at hfirst hrest
  have hstep : ∀ t o, Inv home t ∧ Guard home s.steps.length sv c t → Locked home t o →
      Inv home (t.step o) ∧ Guard home s.steps.length sv c (t.step o) :=
    fun t o h ho => ⟨h.1.step t o ho, h.2.effect h.1 ho (t.step_effect o)⟩
  have hboth := Core.run_inv hstep ⟨hinv.step s _ hfirst, hguard⟩ hrest
  exact hboth.2.not_idle hbegins

/-- a server is connected before its monitor starts, a blocking client registers, and its worker is told -/
def heldBack : List Op :=
  [.addWorker 0 true, .insertServer 0 0, .setWorker 0 0, .monitorStart 0, .client 0 (.register true),
    .client 0 (.insertClient 0), .monitorWake 0, .monitorTell 0 true]

/-- a step is requested, the client asks to advance, the worker is told and polled, and the step is sent -/
def letGo : List Op :=
  [.getWorkers 0, .client 0 (.advanceRequest 0 1), .client 0 (.next 0), .client 0 (.next 0), .client 0 (.next 0),
    .monitorWake 0, .monitorTell 0 true, .isBlocking 0 0 true, .sendSteps 0]

theorem locked_letGo : Along System.step (Locked id) System.start (heldBack ++ .stepRequest :: letGo) := by
  refine ⟨trivial, ?_, ?_, trivial, ?_, ?_, ?_, ?raises, trivial, trivial, ?_, ?_, ?_, ?_, ?_, ?lowers, ?_, trivial,
    trivial⟩
  case raises =>
    intro w blocking hphase
    obtain ⟨-, rfl⟩ := Phase.telling.inj (show Phase.telling 0 true = .telling w blocking from hphase)
    exact nofun
  case lowers =>
    -- the worker has no other server
    exact fun _ _ _ _ sv' hne he => absurd he hne
  all_goals
    simp only [Locked]
    decide

/-- the worker begins the step while the client waits -/
theorem step_begins_with_waiting_client :
    (0 : ClientId) ∉ ((run System.step System.start (heldBack ++ .stepRequest :: letGo)).server 0).idle :=
  (lock_step id (heldBack ++ .stepRequest :: letGo) locked_letGo).2 heldBack letGo 0 0 0 rfl (by decide) (by decide)

/-- the same with the server connected after its monitor has started, as in a running server -/
def firstNotification : List Op :=
  [.addWorker 0 true, .monitorStart 0, .insertServer 0 0, .setWorker 0 0, .client 0 (.register true),
    .client 0 (.insertClient 0), .monitorWake 0, .monitorRefresh 0 true]

/-- **The first notification is lost.** The counter is 1, nothing is in flight, and the worker is not blocked. -/
theorem first_notification_lost :
    ¬ ∀ (ops : List Op) (w : WorkerId),
      (∀ sv, ¬ Notifying ((run System.step System.start ops).server sv)) →
      (((run System.step System.start ops).worker w).blockedWatch = true ↔
        ∃ sv, Connected (run System.step System.start ops) w sv ∧
          ((run System.step System.start ops).server sv).blocked.value ≠ 0) := by
  intro h
  have hquiet : ∀ sv, ¬ Notifying ((run System.step System.start firstNotification).server sv) := by
    intro sv
    cases sv with
    | zero => decide
    | succ n => exact (by decide : ¬ Notifying Server.spawn)
  have hblocked := (h firstNotification 0 hquiet).mpr ⟨0, by decide, by decide⟩
  exact absurd hblocked (by decide)

end BigWorlds.LockStep.Blocking
