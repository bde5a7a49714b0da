/-
A server and its blocking clients (`server/mod.rs`, `server/turn.rs`).

Every lock acquisition of a handler is one operation, so operations of different handlers interleave:
- registering takes two locks: the counter of the `blocked` watch is raised under the first, the client enters the
  table under the second (authorization comes before both and changes nothing);
- an `AdvanceRequest` is a task: it checks its client, takes its target from the clock watch, lowers the counter, waits
  for the clock, and raises the counter again. `clock.1.clone()` is a receiver that has never marked a version seen;
- `Disconnect` is one lock.

The counter is a `u8`; its arithmetic wraps, as in a release build.

- `blocked_counts`: the condition (`Orderly`) under which, in every reachable state, the counter is the number of
  registered blocking clients without a waiting request, and no increment or decrement has wrapped.
- `overshoot_keeps_counter_low`: a call that sees the clock past its target returns without raising the counter.
-/
import Mathlib.Data.Finmap
import BigWorlds.Core.Run
import BigWorlds.Core.Watch
import BigWorlds.Error

namespace BigWorlds.LockStep

open BigWorlds.Core (Watch run Along)

/-! ## Model -/

structure Client where
  isBlocking : Bool
deriving DecidableEq, Repr

/-- where a call of `handle_advance_request` stands -/
inductive Pc where
  | called
  | checked
  | targeted (targetClock : ℕ)
  /-- in the loop, the counter lowered; the version of the clock watch last marked as seen -/
  | waiting (targetClock seen : ℕ)
  /-- the clock is at the target; the counter is still low -/
  | reached (targetClock : ℕ)
  /-- the error text of the `AdvanceResponse`, or the error -/
  | answered (answer : Except Error String)
  | panicked
deriving DecidableEq

structure AdvanceCall where
  client : ClientId
  stepCount : UInt32
  pc : Pc
deriving DecidableEq

/-- the counter is lowered for this call -/
def AdvanceCall.isWaiting (r : AdvanceCall) : Bool :=
  match r.pc with
  | .waiting _ _ | .reached _ => true
  | _ => false

inductive Phase where
  /-- the task has not run yet -/
  | off
  | idle
  /-- `SetBlocking` is on its way -/
  | telling (worker : WorkerId) (blocking : Bool)
  | refreshing
deriving DecidableEq, Repr

/-- the task that watches the counter and tells the worker -/
structure Monitor where
  phase : Phase
  /-- its own copy of the server's worker -/
  worker : Option WorkerId
  seen : ℕ
  /-- ghost: what it told last -/
  told : Bool
deriving DecidableEq, Repr

structure Server where
  clients : Finmap fun _ : ClientId => Client
  /-- `Uuid::new_v4` -/
  nextClient : ClientId
  /-- clients between the two locks of their registration -/
  registering : Finmap fun _ : ClientId => Client
  clock : Watch ℕ
  blocked : Watch UInt8
  calls : List AdvanceCall
  cancelled : Bool
  worker : Option WorkerId
  monitor : Monitor
  /-- ghost: increments less decrements of the counter -/
  net : ℤ
deriving DecidableEq

inductive ClientOp where
  | register (isBlocking : Bool)
  | insertClient (id : ClientId)
  | disconnect (id : ClientId)
  | advanceRequest (id : ClientId) (stepCount : UInt32)
  /-- the next lock or wake-up of a call -/
  | next (i : ℕ)
  | cancel
  /-- the call loses the `select!` against the cancellation -/
  | dropped (i : ℕ)
  /-- `changed` fails in a waiting call. The sender is part of the state that the call itself keeps alive -/
  | watchClosed (i : ℕ)
deriving DecidableEq

namespace Server

def raise (s : Server) : Server := { s with blocked := s.blocked.modify (· + 1), net := s.net + 1 }

def lower (s : Server) : Server := { s with blocked := s.blocked.modify (· - 1), net := s.net - 1 }

def setCall (s : Server) (i : ℕ) (r : AdvanceCall) (pc : Pc) : Server :=
  { s with calls := s.calls.set i { r with pc } }

def register (s : Server) (isBlocking : Bool) : Server :=
  let s := if isBlocking then s.raise else s
  { s with
    nextClient := s.nextClient + 1
    registering := s.registering.insert s.nextClient ⟨isBlocking⟩ }

def insertClient (s : Server) (id : ClientId) : Server :=
  match s.registering.lookup id with
  | none => s
  | some client => { s with registering := s.registering.erase id, clients := s.clients.insert id client }

def disconnect (s : Server) (id : ClientId) : Server :=
  let s := match s.clients.lookup id with
    | some client => if client.isBlocking ∧ s.blocked.value ≠ 0 then s.lower else s
    | none => s
  { s with clients := s.clients.erase id }

/-- `handle_advance_request` from one lock or wake-up to the next -/
def handleAdvanceRequest (s : Server) (i : ℕ) (r : AdvanceCall) : Server :=
  match r.pc with
  | .called =>
    match s.clients.lookup r.client with
    | none => s.setCall i r .panicked
    | some client =>
      if !client.isBlocking then
        s.setCall i r (.answered (.error (.other "Non-blocking client sent advance request")))
      else if r.stepCount < 1 then
        s.setCall i r (.answered (.ok s!"invalid `step_count` value: {r.stepCount}"))
      else s.setCall i r .checked
  | .checked => s.setCall i r (.targeted (s.clock.value + r.stepCount.toNat))
  | .targeted targetClock => s.lower.setCall i r (.waiting targetClock 0)
  | .waiting targetClock seen =>
    if seen = s.clock.version then s
    else if s.clock.value = targetClock then s.setCall i r (.reached targetClock)
    else if targetClock < s.clock.value then
      s.setCall i r (.answered (.error (.other "clock went too far compared to target")))
    else s.setCall i r (.waiting targetClock s.clock.version)
  | .reached _ => s.raise.setCall i r (.answered (.ok ""))
  | .answered _ | .panicked => s

def dropped (s : Server) (i : ℕ) (r : AdvanceCall) : Server :=
  match r.pc with
  | .answered _ | .panicked => s
  | _ => s.setCall i r (.answered (.error (.other "connection closed before step advance could be processed")))

def clientStep (s : Server) : ClientOp → Server
  | .register isBlocking => s.register isBlocking
  | .insertClient id => s.insertClient id
  | .disconnect id => s.disconnect id
  | .advanceRequest id stepCount => { s with calls := s.calls ++ [⟨id, stepCount, .called⟩] }
  | .next i =>
    match s.calls[i]? with
    | none => s
    | some r => s.handleAdvanceRequest i r
  | .cancel => { s with cancelled := true }
  | .dropped i =>
    match s.calls[i]? with
    | none => s
    | some r => if s.cancelled then s.dropped i r else s
  | .watchClosed i =>
    match s.calls[i]? with
    | none => s
    | some r => if r.isWaiting then s.setCall i r (.answered (.ok "")) else s

def clockChangedTo (s : Server) (clock : ℕ) : Server := { s with clock := s.clock.send clock }

/-- the `blocked` watch has changed since the monitor last looked -/
def unseen (s : Server) : Bool := s.monitor.seen != s.blocked.version

def setMonitor (s : Server) (m : Monitor) : Server := { s with monitor := m }

def monitorStart (s : Server) : Server :=
  match s.monitor.phase with
  | .off => s.setMonitor { s.monitor with phase := .idle, worker := s.worker }
  | _ => s

/-- `changed` returns: without a worker of its own the monitor reads the value and tells nobody -/
def monitorWake (s : Server) : Server :=
  match s.monitor.phase with
  | .idle =>
    if s.unseen then
      let phase := match s.monitor.worker with
        | some w => .telling w (s.blocked.value != 0)
        | none => .refreshing
      s.setMonitor { s.monitor with phase, seen := s.blocked.version }
    else s
  | _ => s

/-- `SetBlocking` is answered -/
def monitorTold (s : Server) : Server :=
  match s.monitor.phase with
  | .telling _ blocking => s.setMonitor { s.monitor with phase := .idle, told := blocking }
  | _ => s

/-- after 1 ms: `locked` is whether `try_lock` got the lock -/
def monitorRefresh (s : Server) (locked : Bool) : Server :=
  match s.monitor.phase with
  | .refreshing =>
    s.setMonitor { s.monitor with phase := .idle, worker := if locked then s.worker else s.monitor.worker }
  | _ => s

def setWorker (s : Server) (w : WorkerId) : Server := { s with worker := some w }

/-- `server::spawn` -/
def spawn : Server where
  clients := ∅
  nextClient := 0
  registering := ∅
  clock := .channel 0
  blocked := .channel 0
  calls := []
  cancelled := false
  worker := none
  monitor := ⟨.off, none, 0, false⟩
  net := 0

end Server

/-! ## What is to hold -/

/-- the blocking clients of a table -/
def blockers (clients : Finmap fun _ : ClientId => Client) : Finset ClientId :=
  clients.keys.filter fun c => clients.lookup c = some ⟨true⟩

namespace Server

/-- a request of the client is waiting for the clock -/
def Awaits (s : Server) (c : ClientId) : Prop := ∃ r ∈ s.calls, r.client = c ∧ r.isWaiting = true

instance (s : Server) (c : ClientId) : Decidable (s.Awaits c) :=
  inferInstanceAs (Decidable (∃ r ∈ s.calls, _ ∧ _))

/-- registered blocking clients without a waiting request -/
def idle (s : Server) : Finset ClientId := (blockers s.clients).filter fun c => ¬ s.Awaits c

/-- the counter is the number of idle blocking clients; a client between the two locks of its registration is counted
already -/
def Counted (s : Server) : Prop := s.blocked.value.toNat = s.idle.card + (blockers s.registering).card

/-- no increment or decrement of the counter has wrapped -/
def Unwrapped (s : Server) : Prop := (s.blocked.value.toNat : ℤ) = s.net

instance (s : Server) : Decidable s.Counted := inferInstanceAs (Decidable (_ = _))

instance (s : Server) : Decidable s.Unwrapped := inferInstanceAs (Decidable (_ = _))

/-! ## The condition -/

/-- the next move of a call is one that keeps the count -/
def OrderlyCall (s : Server) (r : AdvanceCall) : Prop :=
  match r.pc with
  | .targeted _ => r.client ∈ s.idle
  | .waiting targetClock _ => s.clock.value ≤ targetClock
  | .reached _ => s.blocked.value ≠ 255
  | _ => True

/-- **The condition on a step.** The counter is raised below 255 only; a call lowers it only for a client that is still
registered and has no other waiting request; a waiting call does not find the clock past its target, its watch closed or
its server cancelled; and a client disconnects only when it has no waiting request. -/
def Orderly (s : Server) : ClientOp → Prop
  | .register isBlocking => isBlocking = true → s.blocked.value ≠ 255
  | .disconnect id => ¬ s.Awaits id
  | .next i => ∀ r ∈ s.calls[i]?, s.OrderlyCall r
  | .dropped i | .watchClosed i => ∀ r ∈ s.calls[i]?, r.isWaiting = false
  | _ => True

instance (s : Server) (r : AdvanceCall) : Decidable (s.OrderlyCall r) :=
  match r with
  | ⟨client, _, .targeted _⟩ => inferInstanceAs (Decidable (client ∈ s.idle))
  | ⟨_, _, .waiting targetClock _⟩ => inferInstanceAs (Decidable (s.clock.value ≤ targetClock))
  | ⟨_, _, .reached _⟩ => inferInstanceAs (Decidable (s.blocked.value ≠ 255))
  | ⟨_, _, .called⟩ | ⟨_, _, .checked⟩ | ⟨_, _, .answered _⟩ | ⟨_, _, .panicked⟩ => .isTrue trivial

instance (s : Server) (o : ClientOp) : Decidable (s.Orderly o) :=
  match o with
  | .register isBlocking => inferInstanceAs (Decidable (isBlocking = true → s.blocked.value ≠ 255))
  | .disconnect id => inferInstanceAs (Decidable (¬ s.Awaits id))
  | .next i => inferInstanceAs (Decidable (∀ r ∈ s.calls[i]?, s.OrderlyCall r))
  | .dropped i | .watchClosed i => inferInstanceAs (Decidable (∀ r ∈ s.calls[i]?, r.isWaiting = false))
  | .insertClient _ | .advanceRequest _ _ | .cancel => .isTrue trivial

/-! ## The table of blocking clients -/

theorem mem_blockers {m : Finmap fun _ : ClientId => Client} {c : ClientId} :
    c ∈ blockers m ↔ m.lookup c = some ⟨true⟩ := by
  simp only [blockers, Finset.mem_filter, Finmap.mem_keys, and_iff_right_iff_imp]
  exact Finmap.mem_of_lookup_eq_some

theorem blockers_insert {m : Finmap fun _ : ClientId => Client} {c : ClientId} (h : c ∉ m) (isBlocking : Bool) :
    blockers (m.insert c ⟨isBlocking⟩) = if isBlocking then insert c (blockers m) else blockers m := by
  ext d
  have hc : m.lookup c ≠ some ⟨true⟩ := by
    rw [Finmap.lookup_eq_none.mpr h]
    exact nofun
  by_cases hd : d = c
  · subst hd
    cases isBlocking <;> simp [mem_blockers, hc]
  · cases isBlocking <;> simp [mem_blockers, Finmap.lookup_insert_of_ne _ hd, hd]

theorem blockers_erase (m : Finmap fun _ : ClientId => Client) (c : ClientId) :
    blockers (m.erase c) = (blockers m).erase c := by
  ext d
  by_cases hd : d = c
  · subst hd
    simp [mem_blockers]
  · simp [mem_blockers, Finmap.lookup_erase_ne hd, hd]

theorem card_blockers_insert {m : Finmap fun _ : ClientId => Client} {c : ClientId} (h : c ∉ m) (isBlocking : Bool) :
    (blockers (m.insert c ⟨isBlocking⟩)).card = (blockers m).card + if isBlocking then 1 else 0 := by
  have hc : c ∉ blockers m := fun hb => h (Finmap.mem_of_lookup_eq_some (mem_blockers.1 hb))
  rw [blockers_insert h]
  cases isBlocking
  · rfl
  · exact Finset.card_insert_of_notMem hc

theorem card_blockers_erase {m : Finmap fun _ : ClientId => Client} {c : ClientId} {client : Client}
    (h : m.lookup c = some client) :
    (blockers (m.erase c)).card + (if client.isBlocking then 1 else 0) = (blockers m).card := by
  rw [blockers_erase]
  obtain ⟨isBlocking⟩ := client
  cases isBlocking
  · have hc : c ∉ blockers m := by
      rw [mem_blockers, h]
      exact nofun
    rw [Finset.erase_eq_of_notMem hc]
    rfl
  · exact Finset.card_erase_add_one (mem_blockers.2 h)

/-! ## The invariant -/

/-- every waiting request is counted once, for a registered blocking client -/
structure Inv (s : Server) : Prop where
  counted : s.blocked.value.toNat + s.calls.countP (·.isWaiting) =
    (blockers s.clients).card + (blockers s.registering).card
  once : ∀ c, s.calls.countP (fun r => r.isWaiting && decide (r.client = c)) ≤ 1
  registered : ∀ r ∈ s.calls, r.isWaiting = true → r.client ∈ blockers s.clients
  unwrapped : s.Unwrapped
  fresh : ∀ c, c ∈ s.clients ∨ c ∈ s.registering → c < s.nextClient
  disjoint : ∀ c ∈ s.registering, c ∉ s.clients

theorem inv_spawn : Inv spawn := by
  refine ⟨rfl, fun c => Nat.zero_le _, nofun, rfl, fun c hc => ?_, fun c hc => absurd hc Finmap.notMem_empty⟩
  rcases hc with hc | hc <;> exact absurd hc Finmap.notMem_empty

theorem countP_awaits {s : Server} {c : ClientId} :
    s.calls.countP (fun r => r.isWaiting && decide (r.client = c)) = 0 ↔ ¬ s.Awaits c := by
  simp only [List.countP_eq_zero, Bool.and_eq_true, decide_eq_true_eq, Awaits, not_exists, not_and]
  exact ⟨fun h r hr hc hw => h r hr hw hc, fun h r hr hw hc => h r hr hc hw⟩

/-- the clients of the waiting requests -/
def waitingClients (s : Server) : List ClientId := (s.calls.filter (·.isWaiting)).map (·.client)

theorem mem_waitingClients {s : Server} {c : ClientId} : c ∈ s.waitingClients ↔ s.Awaits c := by
  simp only [waitingClients, List.mem_map, List.mem_filter, Awaits]
  exact ⟨fun ⟨r, ⟨hr, hw⟩, hc⟩ => ⟨r, hr, hc, hw⟩, fun ⟨r, hr, hc, hw⟩ => ⟨r, ⟨hr, hw⟩, hc⟩⟩

theorem Inv.nodup {s : Server} (h : Inv s) : s.waitingClients.Nodup := by
  refine List.nodup_iff_count_le_one.mpr fun c => ?_
  calc s.waitingClients.count c
      = s.calls.countP (fun r => r.isWaiting && decide (r.client = c)) := by
        simp only [waitingClients, List.count, List.countP_map, List.countP_filter]
        exact List.countP_congr fun r _ => by simp [and_comm]
    _ ≤ 1 := h.once c

/-- idle and waiting clients are all the blocking clients -/
theorem Inv.idle_card {s : Server} (h : Inv s) :
    s.idle.card + s.calls.countP (·.isWaiting) = (blockers s.clients).card := by
  have hlen : s.waitingClients.toFinset.card = s.calls.countP (·.isWaiting) := by
    rw [List.toFinset_card_of_nodup h.nodup, waitingClients, List.length_map, List.countP_eq_length_filter]
  have hsub : s.waitingClients.toFinset ⊆ blockers s.clients := by
    intro c hc
    obtain ⟨r, hr, rfl, hw⟩ := mem_waitingClients.1 (List.mem_toFinset.mp hc)
    exact h.registered r hr hw
  have hidle : s.idle = blockers s.clients \ s.waitingClients.toFinset := by
    ext c
    simp only [idle, Finset.mem_filter, Finset.mem_sdiff, List.mem_toFinset, mem_waitingClients]
  rw [hidle, ← hlen]
  exact Finset.card_sdiff_add_card_eq_card hsub

theorem Inv.isCounted {s : Server} (h : Inv s) : s.Counted := by
  have h1 := h.counted
  have h2 := h.idle_card
  unfold Counted
  omega

theorem Inv.blocked_ne_zero {s : Server} (h : Inv s) {c : ClientId} (hc : c ∈ s.idle) : s.blocked.value ≠ 0 := by
  have hpos : 0 < s.idle.card := Finset.card_pos.mpr ⟨c, hc⟩
  have hcount : s.blocked.value.toNat = s.idle.card + (blockers s.registering).card := h.isCounted
  intro h0
  rw [h0] at hcount
  have hz : (0 : UInt8).toNat = 0 := rfl
  omega

/-! ## Raising and lowering -/

theorem toNat_add_one {v : UInt8} (h : v ≠ 255) : (v + 1).toNat = v.toNat + 1 := by
  have hv : v.toNat ≠ 255 := fun he => h (UInt8.toNat_inj.mp he)
  have hlt : v.toNat < 256 := v.toNat_lt
  rw [UInt8.toNat_add]
  exact Nat.mod_eq_of_lt (show v.toNat + 1 < 2 ^ 8 by omega)

theorem toNat_sub_one {v : UInt8} (h : v ≠ 0) : (v - 1).toNat + 1 = v.toNat := by
  have hv : v.toNat ≠ 0 := fun he => h (UInt8.toNat_inj.mp he)
  have hle : (1 : UInt8) ≤ v := UInt8.le_iff_toNat_le.mpr (Nat.one_le_iff_ne_zero.mpr hv)
  rw [UInt8.toNat_sub_of_le _ _ hle]
  exact Nat.sub_add_cancel (Nat.one_le_iff_ne_zero.mpr hv)

theorem Unwrapped.raise {s : Server} (h : s.Unwrapped) (hv : s.blocked.value ≠ 255) : s.raise.Unwrapped := by
  have h1 := toNat_add_one hv
  simp only [Unwrapped, Server.raise, Watch.value_modify] at h ⊢
  omega

theorem Unwrapped.lower {s : Server} (h : s.Unwrapped) (hv : s.blocked.value ≠ 0) : s.lower.Unwrapped := by
  have h1 := toNat_sub_one hv
  simp only [Unwrapped, Server.lower, Watch.value_modify] at h ⊢
  omega

/-! ## One step -/

/-- a call moves on; whether it is waiting stays -/
theorem Inv.setCall {s : Server} (h : Inv s) {i : ℕ} {r : AdvanceCall} (hr : s.calls[i]? = some r) {pc : Pc}
    (hpc : ({ r with pc } : AdvanceCall).isWaiting = r.isWaiting) : Inv (s.setCall i r pc) where
  counted := by
    have hset := Core.countP_set_same (p := (·.isWaiting)) hr hpc
    exact (congrArg (s.blocked.value.toNat + ·) hset).trans h.counted
  once c := by
    refine le_of_eq_of_le (Core.countP_set_same hr ?_) (h.once c)
    simp only [hpc]
  registered := Core.forall_mem_set h.registered fun hw => h.registered r (List.mem_of_getElem? hr) (hpc ▸ hw)
  unwrapped := h.unwrapped
  fresh := h.fresh
  disjoint := h.disjoint

theorem Inv.register {s : Server} (h : Inv s) {isBlocking : Bool} (hok : isBlocking = true → s.blocked.value ≠ 255) :
    Inv (s.register isBlocking) := by
  have hreg : s.nextClient ∉ s.registering := fun hm => Nat.lt_irrefl _ (h.fresh _ (.inr hm))
  have hcli : s.nextClient ∉ s.clients := fun hm => Nat.lt_irrefl _ (h.fresh _ (.inl hm))
  have hcard := card_blockers_insert hreg isBlocking
  have hcounted := h.counted
  have hfresh : ∀ c, c ∈ s.clients ∨ c ∈ s.registering.insert s.nextClient ⟨isBlocking⟩ → c < s.nextClient + 1 := by
    intro c hc
    rcases hc with hc | hc
    · exact Nat.lt_succ_of_lt (h.fresh c (.inl hc))
    · rcases Finmap.mem_insert.mp hc with rfl | hc
      · exact Nat.lt_succ_self _
      · exact Nat.lt_succ_of_lt (h.fresh c (.inr hc))
  have hdisjoint : ∀ c ∈ s.registering.insert s.nextClient ⟨isBlocking⟩, c ∉ s.clients := by
    intro c hc
    rcases Finmap.mem_insert.mp hc with rfl | hc
    · exact hcli
    · exact h.disjoint c hc
  cases isBlocking with
  | false =>
    refine ⟨?_, h.once, h.registered, h.unwrapped, hfresh, hdisjoint⟩
    simp only [Server.register, Bool.false_eq_true, if_false] at hcard ⊢
    omega
  | true =>
    refine ⟨?_, h.once, h.registered, h.unwrapped.raise (hok rfl), hfresh, hdisjoint⟩
    have hv := toNat_add_one (hok rfl)
    simp only [Server.register, if_true, Server.raise, Watch.value_modify] at hcard ⊢
    omega

theorem Inv.insertClient {s : Server} (h : Inv s) (id : ClientId) : Inv (s.insertClient id) := by
  unfold Server.insertClient
  cases hl : s.registering.lookup id with
  | none => exact h
  | some client =>
    obtain ⟨isBlocking⟩ := client
    have hreg : id ∈ s.registering := Finmap.mem_of_lookup_eq_some hl
    have hcli : id ∉ s.clients := h.disjoint id hreg
    have hout := card_blockers_erase hl
    have hin := card_blockers_insert hcli isBlocking
    have hcounted := h.counted
    refine ⟨?_, h.once, fun r hr hw => ?_, h.unwrapped, fun c hc => ?_, fun c hc => ?_⟩
    · simp only at hout ⊢
      omega
    · have hb := h.registered r hr hw
      simp only [blockers_insert hcli isBlocking]
      split_ifs
      · exact Finset.mem_insert_of_mem hb
      · exact hb
    · refine h.fresh c ?_
      rcases hc with hc | hc
      · rcases Finmap.mem_insert.mp hc with rfl | hc
        · exact .inr hreg
        · exact .inl hc
      · exact .inr (Finmap.mem_erase.mp hc).2
    · obtain ⟨hne, hc⟩ := Finmap.mem_erase.mp hc
      intro hm
      rcases Finmap.mem_insert.mp hm with rfl | hm
      · exact hne rfl
      · exact h.disjoint c hc hm

theorem Inv.disconnect {s : Server} (h : Inv s) {id : ClientId} (hok : ¬ s.Awaits id) : Inv (s.disconnect id) := by
  have hregistered : ∀ r ∈ s.calls, r.isWaiting = true → r.client ∈ blockers (s.clients.erase id) := by
    intro r hr hw
    rw [blockers_erase]
    exact Finset.mem_erase.mpr ⟨fun he => hok ⟨r, hr, he, hw⟩, h.registered r hr hw⟩
  have hfresh : ∀ c, c ∈ s.clients.erase id ∨ c ∈ s.registering → c < s.nextClient := by
    intro c hc
    exact h.fresh c (hc.imp_left fun hm => (Finmap.mem_erase.mp hm).2)
  have hdisjoint : ∀ c ∈ s.registering, c ∉ s.clients.erase id :=
    fun c hc hm => h.disjoint c hc (Finmap.mem_erase.mp hm).2
  have hcounted := h.counted
  unfold Server.disconnect
  cases hl : s.clients.lookup id with
  | none =>
    have herase : blockers (s.clients.erase id) = blockers s.clients := by
      rw [blockers_erase, Finset.erase_eq_of_notMem]
      rw [mem_blockers, hl]
      exact nofun
    exact ⟨by simp only [herase]; omega, h.once, hregistered, h.unwrapped, hfresh, hdisjoint⟩
  | some client =>
    have hout := card_blockers_erase hl
    obtain ⟨isBlocking⟩ := client
    cases isBlocking with
    | false =>
      simp only [Bool.false_eq_true, false_and, if_false] at hout ⊢
      exact ⟨by simp only; omega, h.once, hregistered, h.unwrapped, hfresh, hdisjoint⟩
    | true =>
      -- the client is idle, so the counter counts it
      have hidle : id ∈ s.idle := Finset.mem_filter.mpr ⟨mem_blockers.2 hl, hok⟩
      have hv : s.blocked.value ≠ 0 := h.blocked_ne_zero hidle
      have hsub := toNat_sub_one hv
      simp only [ne_eq, hv, not_false_eq_true, and_self, if_true] at hout ⊢
      refine ⟨?_, h.once, hregistered, h.unwrapped.lower hv, hfresh, hdisjoint⟩
      simp only [Server.lower, Watch.value_modify]
      omega

/-- a call lowers the counter for its idle client and waits -/
theorem Inv.wait {s : Server} (h : Inv s) {i : ℕ} {r : AdvanceCall} (hr : s.calls[i]? = some r)
    (hw : r.isWaiting = false) (hok : r.client ∈ s.idle) (targetClock seen : ℕ) :
    Inv (s.lower.setCall i r (.waiting targetClock seen)) := by
  have hv := h.blocked_ne_zero hok
  have hsub := toNat_sub_one hv
  have hcounted := h.counted
  obtain ⟨hblocker, hnot⟩ := Finset.mem_filter.mp hok
  have hnew : ({ r with pc := .waiting targetClock seen } : AdvanceCall).isWaiting = true := rfl
  refine ⟨?_, fun c => ?_, ?_, h.unwrapped.lower hv, h.fresh, h.disjoint⟩
  · have hset := Core.countP_set_add (p := (·.isWaiting)) { r with pc := .waiting targetClock seen } hr
    simp only [hw, hnew, Bool.false_eq_true, if_false, if_true] at hset
    simp only [Server.setCall, Server.lower, Watch.value_modify]
    omega
  · have hset := Core.countP_set_add (p := fun r => r.isWaiting && decide (r.client = c))
      { r with pc := .waiting targetClock seen } hr
    simp only [hw, Bool.false_and, Bool.false_eq_true, if_false] at hset
    by_cases hc : r.client = c
    · have h0 := countP_awaits.2 (hc ▸ hnot)
      simp only [Server.setCall, Server.lower]
      split_ifs at hset <;> omega
    · have h1 := h.once c
      simp only [hc, decide_false, Bool.and_false, Bool.false_eq_true, if_false] at hset
      simp only [Server.setCall, Server.lower]
      omega
  · exact Core.forall_mem_set h.registered fun _ => hblocker

/-- a waiting call raises the counter and is no longer waiting -/
theorem Inv.restore {s : Server} (h : Inv s) {i : ℕ} {r : AdvanceCall} (hr : s.calls[i]? = some r)
    (hw : r.isWaiting = true) (hok : s.blocked.value ≠ 255) (answer : Except Error String) :
    Inv (s.raise.setCall i r (.answered answer)) := by
  have hadd := toNat_add_one hok
  have hcounted := h.counted
  have hnew : ({ r with pc := .answered answer } : AdvanceCall).isWaiting = false := rfl
  refine ⟨?_, fun c => ?_, ?_, h.unwrapped.raise hok, h.fresh, h.disjoint⟩
  · have hset := Core.countP_set_add (p := (·.isWaiting)) { r with pc := .answered answer } hr
    simp only [hw, hnew, if_true, Bool.false_eq_true, if_false] at hset
    simp only [Server.setCall, Server.raise, Watch.value_modify]
    omega
  · have hset := Core.countP_set_add (p := fun r => r.isWaiting && decide (r.client = c))
      { r with pc := .answered answer } hr
    have h1 := h.once c
    simp only [hnew, Bool.false_and, Bool.false_eq_true, if_false] at hset
    simp only [Server.setCall, Server.raise]
    omega
  · exact Core.forall_mem_set h.registered nofun

theorem Inv.handleAdvanceRequest {s : Server} (h : Inv s) {i : ℕ} {r : AdvanceCall} (hr : s.calls[i]? = some r)
    (hok : s.Orderly (.next i)) : Inv (s.handleAdvanceRequest i r) := by
  have hok := hok r hr
  unfold Server.handleAdvanceRequest
  obtain ⟨client, stepCount, pc⟩ := r
  cases pc with
  | called =>
    simp only
    split
    · exact h.setCall hr rfl
    · split_ifs
      · exact h.setCall hr rfl
      · exact h.setCall hr rfl
      · exact h.setCall hr rfl
  | checked => exact h.setCall hr rfl
  | targeted targetClock => exact h.wait hr rfl hok targetClock 0
  | waiting targetClock seen =>
    simp only
    split_ifs with h1 h2 h3
    · exact h
    · exact h.setCall hr rfl
    · exact absurd h3 (Nat.not_lt.mpr hok)
    · exact h.setCall hr rfl
  | reached targetClock => exact h.restore hr rfl hok (.ok "")
  | answered answer => exact h
  | panicked => exact h

theorem Inv.clientStep {s : Server} (h : Inv s) {o : ClientOp} (hok : s.Orderly o) : Inv (s.clientStep o) := by
  cases o with
  | register isBlocking => exact h.register hok
  | insertClient id => exact h.insertClient id
  | disconnect id => exact h.disconnect hok
  | advanceRequest id stepCount =>
    refine ⟨?_, fun c => ?_, fun r hr hw => ?_, h.unwrapped, h.fresh, h.disjoint⟩
    · simpa [Server.clientStep, AdvanceCall.isWaiting] using h.counted
    · simpa [Server.clientStep, AdvanceCall.isWaiting] using h.once c
    · rcases List.mem_append.mp hr with hr | hr
      · exact h.registered r hr hw
      · rw [List.mem_singleton.mp hr] at hw
        cases hw
  | next i =>
    simp only [Server.clientStep]
    split
    · exact h
    · exact h.handleAdvanceRequest ‹_› hok
  | cancel => exact ⟨h.counted, h.once, h.registered, h.unwrapped, h.fresh, h.disjoint⟩
  | dropped i =>
    simp only [Server.clientStep]
    split
    · exact h
    · rename_i r hr
      have hw := hok r hr
      split_ifs
      · unfold Server.dropped
        split
        · exact h
        · exact h
        · exact h.setCall hr hw.symm
      · exact h
  | watchClosed i =>
    simp only [Server.clientStep]
    split
    · exact h
    · rename_i r hr
      have hw := hok r hr
      simp only [hw, Bool.false_eq_true, if_false]
      exact h

/-! ## What a client's operation leaves -/

theorem clock_handleAdvanceRequest (s : Server) (i : ℕ) (r : AdvanceCall) :
    (s.handleAdvanceRequest i r).clock = s.clock := by
  unfold handleAdvanceRequest
  repeat' split
  all_goals rfl

theorem clock_clientStep (s : Server) (o : ClientOp) : (s.clientStep o).clock = s.clock := by
  cases o with
  | register isBlocking => cases isBlocking <;> rfl
  | insertClient id =>
    simp only [clientStep, insertClient]
    split <;> rfl
  | disconnect id =>
    simp only [clientStep, disconnect]
    split
    · split_ifs <;> rfl
    · rfl
  | next i =>
    simp only [clientStep]
    split
    · rfl
    · exact s.clock_handleAdvanceRequest i _
  | dropped i =>
    simp only [clientStep, dropped]
    repeat' split
    all_goals rfl
  | watchClosed i =>
    simp only [clientStep]
    repeat' split
    all_goals rfl
  | _ => rfl

/-- the operation may move the counter, and leaves the monitor and the worker as they are -/
structure CounterOnly (s s' : Server) : Prop where
  monitor : s'.monitor = s.monitor
  worker : s'.worker = s.worker
  blocked : s'.blocked = s.blocked ∨ s.blocked.version < s'.blocked.version

theorem CounterOnly.refl (s : Server) : CounterOnly s s := ⟨rfl, rfl, .inl rfl⟩

theorem counterOnly_raise (s : Server) : CounterOnly s s.raise := ⟨rfl, rfl, .inr (Nat.lt_succ_self _)⟩

theorem counterOnly_lower (s : Server) : CounterOnly s s.lower := ⟨rfl, rfl, .inr (Nat.lt_succ_self _)⟩

theorem CounterOnly.setCall {s s' : Server} (h : CounterOnly s s') (i : ℕ) (r : AdvanceCall) (pc : Pc) :
    CounterOnly s (s'.setCall i r pc) := ⟨h.monitor, h.worker, h.blocked⟩

theorem counterOnly_handleAdvanceRequest (s : Server) (i : ℕ) (r : AdvanceCall) :
    CounterOnly s (s.handleAdvanceRequest i r) := by
  unfold handleAdvanceRequest
  repeat' split
  all_goals first
    | exact .refl s
    | exact (CounterOnly.refl s).setCall i r _
    | exact s.counterOnly_lower.setCall i r _
    | exact s.counterOnly_raise.setCall i r _

theorem counterOnly_clientStep (s : Server) (o : ClientOp) : CounterOnly s (s.clientStep o) := by
  cases o with
  | register isBlocking =>
    cases isBlocking with
    | false => exact ⟨rfl, rfl, .inl rfl⟩
    | true => exact ⟨rfl, rfl, .inr (Nat.lt_succ_self _)⟩
  | insertClient id =>
    simp only [clientStep, insertClient]
    split <;> exact ⟨rfl, rfl, .inl rfl⟩
  | disconnect id =>
    simp only [clientStep, disconnect]
    split
    · split_ifs
      · exact ⟨rfl, rfl, .inr (Nat.lt_succ_self _)⟩
      · exact ⟨rfl, rfl, .inl rfl⟩
    · exact ⟨rfl, rfl, .inl rfl⟩
  | advanceRequest id stepCount => exact ⟨rfl, rfl, .inl rfl⟩
  | next i =>
    simp only [clientStep]
    split
    · exact .refl s
    · exact s.counterOnly_handleAdvanceRequest i _
  | cancel => exact ⟨rfl, rfl, .inl rfl⟩
  | dropped i =>
    simp only [clientStep, dropped]
    repeat' split
    all_goals exact ⟨rfl, rfl, .inl rfl⟩
  | watchClosed i =>
    simp only [clientStep]
    repeat' split
    all_goals exact ⟨rfl, rfl, .inl rfl⟩

theorem monitorStart_eq (s : Server) : ∃ m, s.monitorStart = s.setMonitor m := by
  unfold monitorStart
  split <;> exact ⟨_, rfl⟩

theorem monitorWake_eq (s : Server) : ∃ m, s.monitorWake = s.setMonitor m := by
  unfold monitorWake
  split
  · split_ifs <;> exact ⟨_, rfl⟩
  · exact ⟨_, rfl⟩

theorem monitorTold_eq (s : Server) : ∃ m, s.monitorTold = s.setMonitor m := by
  unfold monitorTold
  split <;> exact ⟨_, rfl⟩

theorem monitorRefresh_eq (s : Server) (locked : Bool) : ∃ m, s.monitorRefresh locked = s.setMonitor m := by
  unfold monitorRefresh
  split <;> exact ⟨_, rfl⟩

theorem clock_of_setMonitor {s s' : Server} (h : ∃ m, s' = s.setMonitor m) : s'.clock = s.clock := by
  obtain ⟨m, rfl⟩ := h
  rfl

theorem calls_of_setMonitor {s s' : Server} (h : ∃ m, s' = s.setMonitor m) : s'.calls = s.calls := by
  obtain ⟨m, rfl⟩ := h
  rfl

theorem getElem?_setCall_self {s : Server} {i : ℕ} {r : AdvanceCall} (h : s.calls[i]? = some r) (r' : AdvanceCall)
    (pc : Pc) : (s.setCall i r' pc).calls[i]? = some { r' with pc } := by
  obtain ⟨hi, -⟩ := List.getElem?_eq_some_iff.mp h
  exact List.getElem?_set_self hi

theorem getElem?_setCall_ne (s : Server) {i j : ℕ} (r : AdvanceCall) (pc : Pc) (hj : j ≠ i) :
    (s.setCall i r pc).calls[j]? = s.calls[j]? :=
  List.getElem?_set_ne hj.symm

theorem getElem?_handleAdvanceRequest_ne (s : Server) {i j : ℕ} (r : AdvanceCall) (hj : j ≠ i) :
    (s.handleAdvanceRequest i r).calls[j]? = s.calls[j]? := by
  unfold handleAdvanceRequest
  repeat' split
  all_goals first
    | rfl
    | exact getElem?_setCall_ne _ r _ hj

/-- a call stays as it is unless the operation is about it -/
theorem call_clientStep {s : Server} {i : ℕ} {r : AdvanceCall} (h : s.calls[i]? = some r) (o : ClientOp) :
    (s.clientStep o).calls[i]? = some r ∨ (o = .next i ∧ s.clientStep o = s.handleAdvanceRequest i r) ∨
      (o = .dropped i ∧ s.clientStep o = s.dropped i r) ∨
      (o = .watchClosed i ∧ r.isWaiting = true ∧ s.clientStep o = s.setCall i r (.answered (.ok ""))) := by
  cases o with
  | register isBlocking =>
    left
    cases isBlocking <;> exact h
  | insertClient id =>
    left
    simp only [clientStep, insertClient]
    split <;> exact h
  | disconnect id =>
    left
    simp only [clientStep, disconnect]
    split
    · split_ifs <;> exact h
    · exact h
  | advanceRequest id stepCount =>
    left
    obtain ⟨hi, -⟩ := List.getElem?_eq_some_iff.mp h
    simp only [clientStep]
    rw [List.getElem?_append_left hi, h]
  | next j =>
    by_cases hj : i = j
    · subst hj
      exact .inr (.inl ⟨rfl, by simp only [clientStep, h]⟩)
    · left
      simp only [clientStep]
      split
      · exact h
      · rw [s.getElem?_handleAdvanceRequest_ne _ hj, h]
  | cancel => exact .inl h
  | dropped j =>
    by_cases hj : i = j
    · subst hj
      simp only [clientStep, h]
      split_ifs
      · exact .inr (.inr (.inl ⟨trivial, rfl⟩))
      · exact .inl h
    · left
      simp only [clientStep, dropped]
      repeat' split
      all_goals first
        | exact h
        | rw [getElem?_setCall_ne _ _ _ hj, h]
  | watchClosed j =>
    by_cases hj : i = j
    · subst hj
      simp only [clientStep, h]
      split_ifs with hw
      · exact .inr (.inr (.inr ⟨trivial, hw, rfl⟩))
      · exact .inl h
    · left
      simp only [clientStep]
      repeat' split
      all_goals first
        | exact h
        | rw [getElem?_setCall_ne _ _ _ hj, h]

/-- a client that is gone does not come back -/
def Gone (s : Server) (c : ClientId) : Prop := c ∉ s.registering ∧ c < s.nextClient

theorem Gone.clientStep {s : Server} {c : ClientId} (h : s.Gone c) (o : ClientOp) :
    (s.clientStep o).Gone c ∧ (c ∉ blockers s.clients → c ∉ blockers (s.clientStep o).clients) := by
  obtain ⟨hreg, hlt⟩ := h
  cases o with
  | register isBlocking =>
    have hne : c ≠ s.nextClient := Nat.ne_of_lt hlt
    refine ⟨⟨?_, Nat.lt_succ_of_lt (by cases isBlocking <;> exact hlt)⟩, by cases isBlocking <;> exact id⟩
    intro hm
    cases isBlocking <;> rcases Finmap.mem_insert.mp hm with he | hm <;> first | exact hne he | exact hreg hm
  | insertClient id =>
    simp only [Server.clientStep, Server.insertClient]
    split
    · exact ⟨⟨hreg, hlt⟩, fun hc => hc⟩
    · rename_i client hl
      have hne : c ≠ id := fun he => hreg (he ▸ Finmap.mem_of_lookup_eq_some hl)
      refine ⟨⟨fun hm => hreg (Finmap.mem_erase.mp hm).2, hlt⟩, fun hc hm => hc ?_⟩
      rw [mem_blockers] at hm ⊢
      rwa [Finmap.lookup_insert_of_ne _ hne] at hm
  | disconnect id =>
    have hkept : ∀ m : Finmap fun _ : ClientId => Client, c ∉ blockers m → c ∉ blockers (m.erase id) := by
      intro m hc hm
      rw [blockers_erase] at hm
      exact hc (Finset.mem_erase.mp hm).2
    simp only [Server.clientStep, Server.disconnect]
    split
    · split_ifs <;> exact ⟨⟨hreg, hlt⟩, hkept _⟩
    · exact ⟨⟨hreg, hlt⟩, hkept _⟩
  | next i =>
    simp only [Server.clientStep]
    split
    · exact ⟨⟨hreg, hlt⟩, id⟩
    · unfold handleAdvanceRequest
      repeat' split
      all_goals exact ⟨⟨hreg, hlt⟩, id⟩
  | dropped i =>
    simp only [Server.clientStep, Server.dropped]
    repeat' split
    all_goals exact ⟨⟨hreg, hlt⟩, id⟩
  | watchClosed i =>
    simp only [Server.clientStep]
    repeat' split
    all_goals exact ⟨⟨hreg, hlt⟩, id⟩
  | _ => exact ⟨⟨hreg, hlt⟩, id⟩

/-- a client that waits goes on waiting until its call raises the counter -/
theorem Awaits.clientStep {s : Server} {c : ClientId} {o : ClientOp} (h : s.Awaits c) (hok : s.Orderly o)
    (hr : ∀ i, o = .next i → ∀ r ∈ s.calls[i]?, ∀ targetClock, r.pc ≠ .reached targetClock) :
    (s.clientStep o).Awaits c := by
  obtain ⟨r, hmem, hc, hw⟩ := h
  obtain ⟨i, hi⟩ := List.mem_iff_getElem?.mp hmem
  rcases call_clientStep hi o with hsame | ⟨rfl, hnext⟩ | ⟨rfl, -⟩ | ⟨rfl, -, -⟩
  · exact ⟨r, List.mem_of_getElem? hsame, hc, hw⟩
  · have hcall := hok r hi
    have hpc := hr i rfl r hi
    rw [hnext]
    unfold handleAdvanceRequest
    obtain ⟨client, stepCount, pc⟩ := r
    cases pc with
    | waiting targetClock seen =>
      simp only
      split_ifs with h1 h2 h3
      · exact ⟨_, hmem, hc, hw⟩
      · exact ⟨_, List.mem_of_getElem? (getElem?_setCall_self hi _ _), hc, rfl⟩
      · exact absurd h3 (Nat.not_lt.mpr hcall)
      · exact ⟨_, List.mem_of_getElem? (getElem?_setCall_self hi _ _), hc, rfl⟩
    | reached targetClock => exact absurd rfl (hpc targetClock)
    | _ => cases hw
  · rw [hok r hi] at hw
    cases hw
  · rw [hok r hi] at hw
    cases hw

/-! ## Runs of one server -/

/-- what happens to one server: its clients' requests, and its worker telling it the clock -/
inductive Op where
  | client (o : ClientOp)
  | clockChangedTo (clock : ℕ)
deriving DecidableEq

def step (s : Server) : Op → Server
  | .client o => s.clientStep o
  | .clockChangedTo clock => s.clockChangedTo clock

def OrderlyOp (s : Server) : Op → Prop
  | .client o => s.Orderly o
  | .clockChangedTo _ => True

instance (s : Server) (o : Op) : Decidable (s.OrderlyOp o) :=
  match o with
  | .client o => inferInstanceAs (Decidable (s.Orderly o))
  | .clockChangedTo _ => .isTrue trivial

theorem Inv.clockChangedTo {s : Server} (h : Inv s) (clock : ℕ) : Inv (s.clockChangedTo clock) :=
  ⟨h.counted, h.once, h.registered, h.unwrapped, h.fresh, h.disjoint⟩

theorem Inv.step (s : Server) (o : Op) (h : Inv s) (hok : s.OrderlyOp o) : Inv (s.step o) := by
  cases o with
  | client o => exact h.clientStep hok
  | clockChangedTo clock => exact h.clockChangedTo clock

/-- **The counter counts.** In every run of a new server whose steps all meet the condition, the counter is the number
of registered blocking clients without a waiting request, plus those halfway through their registration, and nothing
has wrapped. -/
theorem blocked_counts (ops : List Op) (hok : Along step OrderlyOp spawn ops) :
    (run step spawn ops).Counted ∧ (run step spawn ops).Unwrapped := by
  have h := Core.run_inv Inv.step inv_spawn hok
  exact ⟨h.isCounted, h.unwrapped⟩

/-- a blocking client registers and advances by one step, up to its wait -/
def registerAndAdvance : List Op :=
  [.client (.register true), .client (.insertClient 0), .client (.advanceRequest 0 1), .client (.next 0),
    .client (.next 0), .client (.next 0)]

/-- the clock reaches the target and the call raises the counter again -/
theorem advance_counts :
    (run step spawn (registerAndAdvance ++ [.clockChangedTo 1, .client (.next 0), .client (.next 0)])).Counted ∧
      (run step spawn (registerAndAdvance ++ [.clockChangedTo 1, .client (.next 0), .client (.next 0)])).Unwrapped :=
  blocked_counts _ (by decide)

/-- **A call that overshoots leaves the counter low.** The clock goes from 0 to 2 between two wake-ups of a call that
waits for 1: the call returns an error, its client is registered and idle, and the counter is 0. -/
theorem overshoot_keeps_counter_low :
    ¬ ∀ ops : List Op, (run step spawn ops).registering = ∅ → (run step spawn ops).Counted := by
  intro h
  exact absurd (h (registerAndAdvance ++ [.clockChangedTo 2, .client (.next 0)]) (by decide)) (by decide)

end Server

end BigWorlds.LockStep
