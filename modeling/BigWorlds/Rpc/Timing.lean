/-
What `Context::register_hop` stores (`rpc/mod.rs`). The comment on `NetworkHop::delta_time_micros` asks for the time
between the original issuing of the call and the registering of the hop, and the one place that builds a hop by hand
(`worker/mod.rs`, before a query goes to the leader) stores that. `register_hop` subtracts the delta of the last hop
from it first, and that one is no sum of what went before.

- `hops_registerHops`: from a list of calls on, the list of deltas grows by `storedFrom`: each delta is the elapsed time
  less the delta stored just before it.
- `storedFrom_eq_iff`: these are the elapsed times when only the last of the calls came at another time than the start,
  and otherwise not.
- `fits_of_le`: while the first call does not come before what the last hop has stored, no subtraction underflows. A
  context that starts without hops is such a one: `fits_new`.
- `timed_iff`: over every context and every list of calls, when all of it is as the comment asks.

Witness: `hop_loses_time`: two hops, each ten microseconds after the start: the second stores no time at all.
-/
import BigWorlds.Core.Run
import BigWorlds.Rpc.Context
import Mathlib.Data.List.Pairwise

namespace BigWorlds

namespace Context

/-! ## Calls of `register_hop` -/

structure Registration where
  now : UInt64
  observer : Participant
deriving DecidableEq, Repr

/-- the call as a step from context to context -/
def registered (ctx : Context) (call : Registration) : Context := ctx.registerHop call.now call.observer

def registerHops (ctx : Context) (calls : List Registration) : Context := Core.run registered ctx calls

/-- calls that a clock allows: in order, not before the start and at most `u32::MAX` microseconds after it -/
structure Registrations (initiatedAt : UInt64) where
  calls : List Registration
  ordered : calls.Pairwise fun call call' => call.now ≤ call'.now
  later : ∀ call ∈ calls, initiatedAt ≤ call.now
  near : ∀ call ∈ calls, call.now.toNat - initiatedAt.toNat ≤ 2 ^ 32 - 1

/-! ## What is asked of them -/

/-- the microseconds between the start and the call -/
def elapsed (initiatedAt : UInt64) (call : Registration) : ℕ := call.now.toNat - initiatedAt.toNat

/-- the stored deltas, in microseconds -/
def deltas (ctx : Context) : List ℕ := ctx.hops.map fun hop => hop.deltaTimeMicros.toNat

/-- neither subtraction of the call underflows -/
def Fits (ctx : Context) (call : Registration) : Prop :=
  ctx.initiatedAt ≤ call.now ∧ ctx.totalTransferTimeMicros ≤ (call.now - ctx.initiatedAt).toUInt32

instance (ctx : Context) (call : Registration) : Decidable (ctx.Fits call) :=
  inferInstanceAs (Decidable (_ ∧ _))

/-- the calls do what the comments on hops say -/
structure Timed (ctx : Context) (calls : List Registration) : Prop where
  stored : (ctx.registerHops calls).deltas = ctx.deltas ++ calls.map (elapsed ctx.initiatedAt)
  total : ∀ call, calls.getLast? = some call →
    (ctx.registerHops calls).totalTransferTimeMicros.toNat = elapsed ctx.initiatedAt call
  ordered : (ctx.registerHops calls).deltas.Pairwise (· ≤ ·)
  fits : Core.Along registered Fits ctx calls

/-! ## What is stored -/

/-- the elapsed time as `register_hop` casts it -/
def word (initiatedAt : UInt64) (call : Registration) : UInt32 := (call.now - initiatedAt).toUInt32

/-- each of the elapsed times less what was stored for the one before it -/
def storedFrom : UInt32 → List UInt32 → List UInt32
  | _, [] => []
  | total, e :: es => (e - total) :: storedFrom (e - total) es

@[simp] theorem totalTransferTimeMicros_registered (ctx : Context) (call : Registration) :
    (ctx.registered call).totalTransferTimeMicros = word ctx.initiatedAt call - ctx.totalTransferTimeMicros := by
  simp only [registered, registerHop, totalTransferTimeMicros, List.getLast?_concat, word]

@[simp] theorem initiatedAt_registered (ctx : Context) (call : Registration) :
    (ctx.registered call).initiatedAt = ctx.initiatedAt := rfl

theorem hops_registerHops (ctx : Context) (calls : List Registration) :
    (ctx.registerHops calls).hops.map NetworkHop.deltaTimeMicros =
      ctx.hops.map NetworkHop.deltaTimeMicros ++
        storedFrom ctx.totalTransferTimeMicros (calls.map (word ctx.initiatedAt)) := by
  induction calls generalizing ctx with
  | nil => simp only [registerHops, Core.run_nil, List.map_nil, storedFrom, List.append_nil]
  | cons call calls ih =>
    have hhops : (ctx.registered call).hops.map NetworkHop.deltaTimeMicros =
        ctx.hops.map NetworkHop.deltaTimeMicros ++ [word ctx.initiatedAt call - ctx.totalTransferTimeMicros] := by
      rw [registered, registerHop, List.map_append]
      rfl
    have hrest := ih (ctx.registered call)
    rw [hhops, totalTransferTimeMicros_registered, initiatedAt_registered, List.append_assoc] at hrest
    exact hrest

/-- **Stored times.** What is stored is the time elapsed, hop by hop, when nothing is subtracted from any of them. -/
theorem storedFrom_eq_iff (total : UInt32) (es : List UInt32) :
    storedFrom total es = es ↔ (es ≠ [] → total = 0) ∧ ∀ e ∈ es.dropLast, e = 0 := by
  induction es generalizing total with
  | nil => simp [storedFrom]
  | cons e es ih =>
    have hhead : e - total = e ↔ total = 0 := by
      rw [UInt32.sub_eq_iff_eq_add, eq_comm, UInt32.add_eq_left]
    rw [storedFrom, List.cons.injEq, hhead]
    apply Iff.trans (and_congr_right fun htotal => by rw [htotal, UInt32.sub_zero, ih])
    cases es with
    | nil => simp
    | cons e' es => simp

/-! ## Underflow -/

/-- while the hops so far have stored no more than what has elapsed when the first call comes, nothing underflows -/
theorem fits_of_le {ctx : Context} {calls : List Registration}
    (hordered : calls.Pairwise fun call call' => word ctx.initiatedAt call ≤ word ctx.initiatedAt call')
    (hlater : ∀ call ∈ calls, ctx.initiatedAt ≤ call.now)
    (hfirst : ∀ call ∈ calls, ctx.totalTransferTimeMicros ≤ word ctx.initiatedAt call) :
    Core.Along registered Fits ctx calls := by
  induction calls generalizing ctx with
  | nil => trivial
  | cons call calls ih =>
    obtain ⟨hcall, hrest⟩ := List.pairwise_cons.mp hordered
    have htotal := hfirst call List.mem_cons_self
    refine ⟨⟨hlater call List.mem_cons_self, htotal⟩, ih hrest ?_ ?_⟩
    · intro call' hmem
      exact hlater call' (List.mem_cons_of_mem call hmem)
    · intro call' hmem
      -- what is stored is at most what has elapsed, and later calls come no earlier
      calc (ctx.registered call).totalTransferTimeMicros
          = word ctx.initiatedAt call - ctx.totalTransferTimeMicros := totalTransferTimeMicros_registered ctx call
        _ ≤ word ctx.initiatedAt call := UInt32.sub_le htotal
        _ ≤ word ctx.initiatedAt call' := hcall call' hmem

/-! ## The clock -/

variable {initiatedAt : UInt64}

theorem word_toNat (calls : Registrations initiatedAt) {call : Registration} (h : call ∈ calls.calls) :
    (word initiatedAt call).toNat = elapsed initiatedAt call := by
  have hlater := calls.later call h
  have hnear := calls.near call h
  rw [word, UInt64.toNat_toUInt32, UInt64.toNat_sub_of_le _ _ hlater, ← elapsed, Nat.mod_eq_of_lt]
  exact Nat.lt_of_le_of_lt hnear (by decide)

theorem map_word (calls : Registrations initiatedAt) :
    (calls.calls.map (word initiatedAt)).map UInt32.toNat = calls.calls.map (elapsed initiatedAt) := by
  rw [List.map_map]
  exact List.map_congr_left fun call h => word_toNat calls h

theorem elapsed_ordered (calls : Registrations initiatedAt) :
    (calls.calls.map (elapsed initiatedAt)).Pairwise (· ≤ ·) := by
  rw [List.pairwise_map]
  apply calls.ordered.imp
  intro call call' h
  exact Nat.sub_le_sub_right (UInt64.le_iff_toNat_le.mp h) _

theorem word_ordered (calls : Registrations initiatedAt) :
    calls.calls.Pairwise fun call call' => word initiatedAt call ≤ word initiatedAt call' := by
  have h := elapsed_ordered calls
  rw [← map_word, List.map_map, List.pairwise_map] at h
  exact h.imp UInt32.le_iff_toNat_le.mpr

theorem word_eq_zero_iff (calls : Registrations initiatedAt) {call : Registration} (h : call ∈ calls.calls) :
    word initiatedAt call = 0 ↔ call.now = initiatedAt := by
  have hlater := UInt64.le_iff_toNat_le.mp (calls.later call h)
  rw [← UInt32.toNat_inj, word_toNat calls h, ← UInt64.toNat_inj]
  change call.now.toNat - initiatedAt.toNat = 0 ↔ call.now.toNat = initiatedAt.toNat
  omega

/-- a context that has registered nothing yet is in order whatever the calls are -/
theorem fits_new (id : Uuid) (origin : Caller) (calls : Registrations initiatedAt) :
    Core.Along registered Fits (new id initiatedAt origin) calls.calls :=
  fits_of_le (word_ordered calls) calls.later fun _ _ => UInt32.zero_le

/-! ## When the times are right -/

theorem deltas_registerHops (ctx : Context) (calls : List Registration) :
    (ctx.registerHops calls).deltas = ctx.deltas ++
      (storedFrom ctx.totalTransferTimeMicros (calls.map (word ctx.initiatedAt))).map UInt32.toNat := by
  have h := congrArg (List.map UInt32.toNat) (hops_registerHops ctx calls)
  rw [List.map_append, List.map_map, List.map_map] at h
  exact h

theorem total_toNat (ctx : Context) : ctx.totalTransferTimeMicros.toNat = ctx.deltas.getLast?.getD 0 := by
  rw [totalTransferTimeMicros, deltas, List.getLast?_map]
  cases ctx.hops.getLast? <;> rfl

theorem stored_iff (ctx : Context) (calls : Registrations ctx.initiatedAt) :
    (ctx.registerHops calls.calls).deltas = ctx.deltas ++ calls.calls.map (elapsed ctx.initiatedAt) ↔
      (calls.calls ≠ [] → ctx.totalTransferTimeMicros = 0) ∧
        ∀ call ∈ calls.calls.dropLast, call.now = ctx.initiatedAt := by
  have hinj : Function.Injective (List.map UInt32.toNat) :=
    List.map_injective_iff.mpr fun _ _ => UInt32.toNat_inj.mp
  rw [deltas_registerHops, List.append_cancel_left_eq, ← map_word, hinj.eq_iff, storedFrom_eq_iff, ne_eq,
    List.map_eq_nil_iff, ← List.map_dropLast, List.forall_mem_map]
  apply and_congr_right'
  apply forall₂_congr
  intro call h
  exact word_eq_zero_iff calls (List.dropLast_subset _ h)

/-- no hop so far stores more than the last one, so none stores anything where that one does not -/
theorem deltas_eq_zero {ctx : Context} (hordered : ctx.deltas.Pairwise (· ≤ ·))
    (htotal : ctx.totalTransferTimeMicros = 0) : ∀ delta ∈ ctx.deltas, delta = 0 := by
  intro delta hmem
  have hne : ctx.deltas ≠ [] := List.ne_nil_of_mem hmem
  have hlast : ctx.deltas.getLast hne = 0 := by
    have h := total_toNat ctx
    rw [htotal, List.getLast?_eq_some_getLast hne] at h
    exact h.symm
  have hle : delta ≤ ctx.deltas.getLast hne := hordered.rel_getLast hmem
  omega

/-- **Hop timing.** Whatever hops a context comes with, the calls of `register_hop` store the time since the start,
leave the last of them as the total, keep the deltas in order and subtract without underflow exactly when the deltas
were in order, the last of them is zero where anything is called, and every call but the last is made in the microsecond
of the start. -/
theorem timed_iff (ctx : Context) (calls : Registrations ctx.initiatedAt) :
    ctx.Timed calls.calls ↔ ctx.deltas.Pairwise (· ≤ ·) ∧ (calls.calls ≠ [] → ctx.totalTransferTimeMicros = 0) ∧
      ∀ call ∈ calls.calls.dropLast, call.now = ctx.initiatedAt := by
  rw [← stored_iff]
  constructor
  · intro h
    have hordered := h.ordered
    rw [h.stored] at hordered
    exact ⟨(List.pairwise_append.mp hordered).1, h.stored⟩
  · intro h
    obtain ⟨hordered, hstored⟩ := h
    have htotal := ((stored_iff ctx calls).mp hstored).1
    have hzero : ∀ call ∈ calls.calls, ctx.totalTransferTimeMicros = 0 := fun call h =>
      htotal (List.ne_nil_of_mem h)
    refine ⟨hstored, ?_, ?_, ?_⟩
    · intro call hlast
      rw [total_toNat, hstored, List.getLast?_append, List.getLast?_map, hlast]
      rfl
    · rw [hstored, List.pairwise_append]
      refine ⟨hordered, elapsed_ordered calls, ?_⟩
      intro delta hdelta e he
      obtain ⟨call, hcall, -⟩ := List.mem_map.mp he
      rw [deltas_eq_zero hordered (hzero call hcall) delta hdelta]
      exact Nat.zero_le e
    · apply fits_of_le (word_ordered calls) calls.later
      intro call hcall
      rw [hzero call hcall]
      exact UInt32.zero_le

def lateHops : Registrations 0 where
  calls := [⟨10, .worker 1⟩, ⟨10, .worker 2⟩]
  ordered := by decide
  later := by decide
  near := by decide

/-- the second hop stores 0, although it is registered as long after the start as the first -/
theorem hop_loses_time :
    ¬ ∀ (ctx : Context) (calls : Registrations ctx.initiatedAt), ctx.Timed calls.calls := by
  intro h
  have hstored := (h (new (.v4 0) 0 .unknown) lateHops).stored
  exact absurd hstored (by decide)

end Context

end BigWorlds
