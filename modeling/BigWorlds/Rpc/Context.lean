/-
The call context that travels with every signal (`rpc/mod.rs`): the identifier of the call, its delivery strategy,
who made it, and the hops it has registered on its way.

Identifiers are `Uuid`s. Those of cluster parties are drawn with `Uuid::new_v4` and never equal the constants that
`Caller::id` returns for the leader and for callers outside the cluster: the version bits differ. `Uuid.v4 n` is the
n-th v4 identifier and `Uuid.fixed n` is `Uuid::from_u128(n)` for such a constant.

Time is what the source takes from `Utc::now()`: it is an argument here. Casts and subtractions wrap, as they do in a
release build.
-/
import Mathlib.Algebra.Group.Nat.Defs
import Mathlib.Data.List.Basic

namespace BigWorlds

inductive Uuid where
  | fixed (n : ℕ)
  | v4 (n : ℕ)
deriving DecidableEq, Repr

abbrev WorkerId := ℕ
abbrev ServerId := ℕ
abbrev ClientId := ℕ

/-! ## Parties -/

inductive Participant where
  | leader
  | worker (id : WorkerId)
  | server (id : ServerId)
  | client (id : ClientId)
deriving DecidableEq, Repr

inductive Caller where
  | participant (p : Participant)
  | simHandle
  | behavior
  | unknown
deriving DecidableEq, Repr

def Caller.id : Caller → Uuid
  | .participant (.worker id) => .v4 id
  | .participant (.server id) => .v4 id
  | .participant (.client id) => .v4 id
  | .participant .leader => .fixed 1
  | .simHandle => .fixed 0
  | .behavior => .fixed (2 ^ 128 - 1)
  | .unknown => .fixed 42

/-! ## Context -/

structure NetworkHop where
  observer : Participant
  deltaTimeMicros : UInt32
deriving DecidableEq, Repr

inductive Delivery where
  | unlimited
  | limited (times : UInt8)
deriving DecidableEq, Repr

structure Context where
  id : Uuid
  delivery : Delivery
  origin : Caller
  target : Option Participant
  initiatedAt : UInt64
  hops : List NetworkHop
deriving DecidableEq, Repr

namespace Context

/-- `Context::new`; the identifier and the time are drawn by the caller -/
def new (id : Uuid) (now : UInt64) (origin : Caller) : Context := ⟨id, .unlimited, origin, none, now, []⟩

/-- the setter `Context::delivery` -/
def setDelivery (ctx : Context) : Option UInt8 → Context
  | some limit => { ctx with delivery := .limited limit }
  | none => { ctx with delivery := .unlimited }

def totalTransferTimeMicros (ctx : Context) : UInt32 :=
  match ctx.hops.getLast? with
  | some last => last.deltaTimeMicros
  | none => 0

def registerHop (ctx : Context) (now : UInt64) (observer : Participant) : Context :=
  let delta := (now - ctx.initiatedAt).toUInt32 - ctx.totalTransferTimeMicros
  { ctx with hops := ctx.hops ++ [⟨observer, delta⟩] }

def mergeHops (ctx : Context) (other : List NetworkHop) : Context :=
  { ctx with hops := ctx.hops ++ other.drop ctx.hops.length }

/-- one round of `merge_hops_unique`: a hop joins unless its observer is there -/
def mergeHop (hops : List NetworkHop) (h : NetworkHop) : List NetworkHop :=
  if hops.any (fun hop => hop.observer = h.observer) then hops else hops ++ [h]

def mergeHopsUnique (ctx : Context) (other : List NetworkHop) : Context :=
  { ctx with hops := other.foldl mergeHop ctx.hops }

def workerObservers (ctx : Context) : List WorkerId :=
  ctx.hops.filterMap fun hop => match hop.observer with
    | .worker id => some id
    | _ => none

def wentThroughWorker (ctx : Context) (id : WorkerId) : Bool :=
  ctx.origin.id = .v4 id || id ∈ ctx.workerObservers

def wentThroughLeader (ctx : Context) : Bool :=
  ctx.origin = .participant .leader || ctx.hops.any fun hop => hop.observer = .leader

/-! ## What the operations leave alone -/

@[simp] theorem registerHop_origin (ctx : Context) (now : UInt64) (p : Participant) :
    (ctx.registerHop now p).origin = ctx.origin := rfl

@[simp] theorem registerHop_id (ctx : Context) (now : UInt64) (p : Participant) :
    (ctx.registerHop now p).id = ctx.id := rfl

@[simp] theorem registerHop_delivery (ctx : Context) (now : UInt64) (p : Participant) :
    (ctx.registerHop now p).delivery = ctx.delivery := rfl

end Context

/-- **Observers.** A worker counts as passed when it made the call or is the observer of a registered hop. -/
theorem Context.wentThroughWorker_iff (ctx : Context) (w : WorkerId) :
    ctx.wentThroughWorker w = true ↔ ctx.origin.id = .v4 w ∨ .worker w ∈ ctx.hops.map NetworkHop.observer := by
  have hobs : w ∈ ctx.workerObservers ↔ .worker w ∈ ctx.hops.map NetworkHop.observer := by
    simp only [Context.workerObservers, List.mem_filterMap, List.mem_map]
    constructor
    · rintro ⟨h, hm, he⟩
      refine ⟨h, hm, ?_⟩
      split at he
      · rename_i id ho
        rw [ho, ← Option.some.inj he]
      · exact absurd he (by simp)
    · rintro ⟨h, hm, he⟩
      exact ⟨h, hm, by rw [he]⟩
  simp only [Context.wentThroughWorker, Bool.or_eq_true, decide_eq_true_eq, hobs]

theorem Context.wentThroughLeader_iff (ctx : Context) :
    ctx.wentThroughLeader = true ↔
      ctx.origin = .participant .leader ∨ .leader ∈ ctx.hops.map NetworkHop.observer := by
  simp only [Context.wentThroughLeader, Bool.or_eq_true, decide_eq_true_eq, List.any_eq_true, List.mem_map]

end BigWorlds
