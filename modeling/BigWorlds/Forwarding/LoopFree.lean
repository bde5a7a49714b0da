/-
Forwarding (`send_to_leader` and `broadcast` of `worker/mod.rs`, `WorkerBroadcast` of `leader/mod.rs`).

A worker forwards a global `Invoke` to every connected peer that the context does not name, and to the leader unless
the context names it; the leader forwards to every registered worker that the context does not name. A request for the
leader goes to the first such peer, where the worker has no connection of its own. What the context names are the
caller and the observers of the hops, and a worker registers its hop only where the signal comes on one of the two
local streams: not for a signal from a behavior, nor for one from the network.

- `Forward`: one forwarding; tables of seen calls, times and the answers that the leader has merged are arbitrary;
- `loop_free`: while every worker that forwards is named by the context it forwards with, no chain comes to a worker
  twice, and forwarding ends;
- `remote_peers_loop`: a behavior's `Invoke` at one of two workers with a remote link goes back and forth for ever.
-/
import BigWorlds.Cluster.State
import Mathlib.Data.List.Chain
import Mathlib.Order.WellFounded

namespace BigWorlds

/-- the workers that the context names: the caller, and the observers of the hops -/
def Context.passed (ctx : Context) : List WorkerId :=
  (match ctx.origin.id with
    | .v4 w => [w]
    | .fixed _ => []) ++ ctx.workerObservers

namespace Forwarding

open BigWorlds.Core (Exec)

/-! ## Model -/

/-- the requests that are forwarded: a global `Invoke`, or a request for the leader (`ReplaceModel`, `LeaderProxy`) -/
inductive Request where
  | invoke
  | leaderProxy
deriving DecidableEq, Repr

/-- whether `broadcast` sends to peer `p`, and how -/
def broadcastTo (st : WorkerState) (ctx : Context) (p : WorkerId) : Option Exec :=
  if ctx.wentThroughWorker p then none
  else
    match st.otherWorkers.lookup p with
    | some (.connected exec) => some exec
    | _ => none

/-- whether `broadcast` sends to the leader, and how -/
def broadcastToLeader (st : WorkerState) (ctx : Context) : Option Exec :=
  if ctx.wentThroughLeader then none
  else
    match st.leader with
    | .connected exec => some exec
    | _ => none

/-- whether the loop of `WorkerBroadcast` sends to worker `r`, and how -/
def workerBroadcastTo (leader : LeaderState) (ctx : Context) (r : WorkerId) : Option Exec :=
  if ctx.wentThroughWorker r then none else leader.workers.lookup r

/-- the peer that `send_to_leader` takes: the first, in the order in which the map iterates, that the context does not
name -/
def sendToLeaderVia (order : List WorkerId) (ctx : Context) : Option WorkerId :=
  order.find? fun p => !ctx.wentThroughWorker p

/-- the worker is there, and its main loop hands the signal to the request handler with the second context -/
def Arrives (c : Cluster) (exec : Exec) (p : WorkerId) (ctx ctx' : Context) : Prop :=
  p ∈ c.workers.keys ∧
    ∃ now seen, (Inbox.receive p now seen (Cluster.streamOf exec) ctx).2 = .handled ctx'

/-- a request handled at a worker -/
structure Visit where
  worker : WorkerId
  request : Request
  ctx : Context
deriving DecidableEq, Repr

/-- a request handled at one worker is forwarded and handled at another -/
inductive Forward (c : Cluster) : Visit → Visit → Prop
  | peer {w p : WorkerId} {ctx ctx' : Context} {st : WorkerState} {exec : Exec} :
      c.stateOf w = some st → broadcastTo st ctx p = some exec → Arrives c exec p ctx ctx' →
      Forward c ⟨w, .invoke, ctx⟩ ⟨p, .invoke, ctx'⟩
  /-- `more` is what the leader has taken over from earlier answers -/
  | leader {w r : WorkerId} {ctx ctx' : Context} {st : WorkerState} {lexec exec : Exec} (now : UInt64)
      (more : List NetworkHop) :
      c.stateOf w = some st → broadcastToLeader st ctx = some lexec →
      workerBroadcastTo c.leader { ctx.registerHop now .leader with
        hops := (ctx.registerHop now .leader).hops ++ more } r = some exec →
      Arrives c exec r { ctx.registerHop now .leader with hops := (ctx.registerHop now .leader).hops ++ more } ctx' →
      Forward c ⟨w, .invoke, ctx⟩ ⟨r, .invoke, ctx'⟩
  | proxy {w p : WorkerId} {ctx ctx' : Context} {st : WorkerState} {exec : Exec} (order : List WorkerId) :
      c.stateOf w = some st → (st.leader = .unaware ∨ ∃ t, st.leader = .aware t) →
      (order : Multiset WorkerId) = st.otherWorkers.keys.val → sendToLeaderVia order ctx = some p →
      st.otherWorkers.lookup p = some (.connected exec) → Arrives c exec p ctx ctx' →
      Forward c ⟨w, .leaderProxy, ctx⟩ ⟨p, .leaderProxy, ctx'⟩

/-- a request handled at a worker of the cluster, and each time forwarded to the next -/
def Chain (c : Cluster) (l : List Visit) : Prop :=
  (∀ v ∈ l.head?, v.worker ∈ c.workers.keys) ∧ l.IsChain (Forward c)

/-- the context names the worker that handles the request -/
def Visit.Named (v : Visit) : Prop := v.ctx.wentThroughWorker v.worker = true

instance (v : Visit) : Decidable v.Named := inferInstanceAs (Decidable (_ = _))

/-! ## One forwarding -/

theorem named_append {ctx : Context} {hops : List NetworkHop} {w : WorkerId} (h : ctx.wentThroughWorker w = true) :
    ({ ctx with hops := ctx.hops ++ hops } : Context).wentThroughWorker w = true := by
  rw [Context.wentThroughWorker_iff] at h ⊢
  rcases h with h | h
  · exact Or.inl h
  · exact Or.inr (by rw [List.map_append]; exact List.mem_append_left _ h)

theorem named_registerHop {ctx : Context} {w : WorkerId} (now : UInt64) (p : Participant)
    (h : ctx.wentThroughWorker w = true) : (ctx.registerHop now p).wentThroughWorker w = true := named_append h

/-- what is handled names whom the signal names -/
theorem Arrives.named {c : Cluster} {exec : Exec} {p w : WorkerId} {ctx ctx' : Context} (h : Arrives c exec p ctx ctx')
    (hw : ctx.wentThroughWorker w = true) : ctx'.wentThroughWorker w = true := by
  obtain ⟨_, now, seen, h⟩ := h
  cases exec with
  | remote =>
    obtain rfl : ctx' = ctx := Inbox.receive_handled h
    exact hw
  | «local» =>
    obtain rfl : ctx' = ctx.registerHop now (.worker p) := Inbox.receive_handled h
    exact named_registerHop now _ hw

/-- **One forwarding.** It goes to a worker that the context does not name, and no name is lost. -/
theorem Forward.spec {c : Cluster} {v v' : Visit} (h : Forward c v v') :
    v'.worker ∈ c.workers.keys ∧ v.ctx.wentThroughWorker v'.worker = false ∧
      ∀ w, v.ctx.wentThroughWorker w = true → v'.ctx.wentThroughWorker w = true := by
  cases h with
  | peer hst hto ha =>
    refine ⟨ha.1, ?_, fun w => ha.named⟩
    unfold broadcastTo at hto
    split_ifs at hto with hp
    exact Bool.eq_false_iff.mpr hp
  | leader now more hst hl hto ha =>
    refine ⟨ha.1, ?_, fun w hw => ha.named (named_append (named_registerHop now .leader hw))⟩
    unfold workerBroadcastTo at hto
    split_ifs at hto with hr
    exact Bool.eq_false_iff.mpr fun hw => hr (named_append (named_registerHop now .leader hw))
  | proxy order hst hl hord hvia hp ha =>
    refine ⟨ha.1, ?_, fun w => ha.named⟩
    have hp := List.find?_some hvia
    simpa using hp

/-! ## Chains -/

/-- a chain never comes to a worker that the context of its first visit names -/
theorem avoids {c : Cluster} {v : Visit} {l : List Visit} (h : (v :: l).IsChain (Forward c)) :
    ∀ u ∈ l, v.ctx.wentThroughWorker u.worker = false := by
  induction l generalizing v with
  | nil => exact fun u hu => absurd hu List.not_mem_nil
  | cons v' l ih =>
    obtain ⟨hfwd, hrest⟩ := List.isChain_cons_cons.mp h
    obtain ⟨_, hnew, hkeep⟩ := hfwd.spec
    intro u hu
    rcases List.mem_cons.mp hu with rfl | hu
    · exact hnew
    · have hlater := ih hrest u hu
      exact Bool.eq_false_iff.mpr fun hw => absurd (hkeep _ hw) (by rw [hlater]; exact Bool.false_ne_true)

theorem nodup_of_named {c : Cluster} {l : List Visit} (h : l.IsChain (Forward c)) (hnamed : ∀ v ∈ l.dropLast, v.Named) :
    (l.map Visit.worker).Nodup := by
  induction l with
  | nil => exact List.nodup_nil
  | cons v l ih =>
    rw [List.map_cons, List.nodup_cons]
    cases l with
    | nil => exact ⟨List.not_mem_nil, List.nodup_nil⟩
    | cons v' l =>
      rw [List.dropLast_cons_of_ne_nil (List.cons_ne_nil _ _)] at hnamed
      refine ⟨fun hmem => ?_, ih (List.isChain_cons_cons.mp h).2 fun u hu => hnamed u (List.mem_cons_of_mem _ hu)⟩
      obtain ⟨u, hu, heq⟩ := List.mem_map.mp hmem
      have hv : v.ctx.wentThroughWorker v.worker = true := hnamed v List.mem_cons_self
      have := avoids h u hu
      rw [heq, hv] at this
      exact absurd this (by simp)

/-- every visit of a chain is at a worker of the cluster -/
theorem Chain.mem_keys {c : Cluster} {l : List Visit} (h : Chain c l) : ∀ v ∈ l, v.worker ∈ c.workers.keys := by
  obtain ⟨hhead, hchain⟩ := h
  induction l with
  | nil => exact fun v hv => absurd hv List.not_mem_nil
  | cons v l ih =>
    intro u hu
    rcases List.mem_cons.mp hu with rfl | hu
    · exact hhead u rfl
    · cases l with
      | nil => exact absurd hu List.not_mem_nil
      | cons v' l =>
        obtain ⟨hfwd, hrest⟩ := List.isChain_cons_cons.mp hchain
        refine ih ?_ hrest u hu
        rintro w ⟨⟩
        exact hfwd.spec.1

/-! ## The end of forwarding -/

/-- workers of the cluster that the context does not name -/
def unnamed (c : Cluster) (ctx : Context) : Finset WorkerId :=
  c.workers.keys.filter fun w => ctx.wentThroughWorker w = false

/-- how much forwarding there can still be -/
def left (c : Cluster) (v : Visit) : ℕ := 2 * (unnamed c v.ctx).card + if v.Named then 1 else 0

theorem left_lt {c : Cluster} {v v' : Visit} (h : Forward c v v') (hv : v.Named) : left c v' < left c v := by
  obtain ⟨hkey, hnew, hkeep⟩ := h.spec
  have hsub : unnamed c v'.ctx ⊆ unnamed c v.ctx := by
    intro w hw
    obtain ⟨hk, hn⟩ := Finset.mem_filter.mp hw
    exact Finset.mem_filter.mpr ⟨hk, Bool.eq_false_iff.mpr fun hp => absurd (hkeep w hp) (by rw [hn]; simp)⟩
  unfold left
  rw [if_pos hv]
  by_cases hv' : v'.Named
  · -- the worker that the signal came to is named now
    have hmem : v'.worker ∈ unnamed c v.ctx := Finset.mem_filter.mpr ⟨hkey, hnew⟩
    have hnot : v'.worker ∉ unnamed c v'.ctx := fun hm =>
      absurd (Finset.mem_filter.mp hm).2 (by rw [show v'.ctx.wentThroughWorker v'.worker = true from hv']; simp)
    have hlt := Finset.card_lt_card (hsub.ssubset_of_mem_notMem hmem hnot)
    rw [if_pos hv']
    omega
  · have hle := Finset.card_le_card hsub
    rw [if_neg hv']
    omega

/-- **Forwarding is loop-free** as long as every worker that forwards is named by its context: no worker is visited
twice, there are at most as many visits as workers, and there is no endless forwarding. -/
theorem loop_free {c : Cluster} {l : List Visit} (h : Chain c l) (hnamed : ∀ v ∈ l.dropLast, v.Named) :
    (l.map Visit.worker).Nodup ∧ l.length ≤ c.workers.keys.card ∧
      WellFounded fun v' v => Forward c v v' ∧ v.Named := by
  have hnodup := nodup_of_named h.2 hnamed
  refine ⟨hnodup, ?_, ?_⟩
  · have hsub : (l.map Visit.worker).toFinset ⊆ c.workers.keys := by
      intro w hw
      obtain ⟨v, hv, rfl⟩ := List.mem_map.mp (List.mem_toFinset.mp hw)
      exact h.mem_keys v hv
    calc l.length = (l.map Visit.worker).length := (List.length_map _).symm
      _ = (l.map Visit.worker).toFinset.card := (List.toFinset_card_of_nodup hnodup).symm
      _ ≤ c.workers.keys.card := Finset.card_le_card hsub
  · exact Subrelation.wf (fun ⟨hfwd, hv⟩ => left_lt hfwd hv) (measure (left c)).wf

/-! ## Two peers -/

/-- a worker without a leader -/
def node (otherWorkers : FnvHashMap WorkerId WorkerSituation) : WorkerNode :=
  ⟨{ config := .default, model := none, part := none, disk := ∅, leader := .unaware, otherWorkers }, ∅⟩

/-- two workers that are each other's peer -/
def twoPeers (exec : Exec) : Cluster where
  leader := ⟨none, ∅⟩
  workers := Finmap.insert 0 (node (Finmap.singleton 1 (.connected exec)))
    (Finmap.singleton 1 (node (Finmap.singleton 0 (.connected exec))))

/-- what a behavior of a worker calls with -/
def behaviorCall : Context := .new (.v4 7) 0 .behavior

/-- a call of a client that came to worker 0 on a local stream -/
def clientCall : Context := (Context.new (.v4 7) 0 (.participant (.client 9))).registerHop 0 (.worker 0)

/-- over a local link the call goes to the other worker, and that is all -/
theorem local_peers_chain :
    ([(⟨0, .invoke, clientCall⟩ : Visit), ⟨1, .invoke, clientCall.registerHop 0 (.worker 1)⟩].map Visit.worker).Nodup ∧
      [(⟨0, .invoke, clientCall⟩ : Visit), ⟨1, .invoke, clientCall.registerHop 0 (.worker 1)⟩].length ≤
        (twoPeers .local).workers.keys.card ∧
      WellFounded fun v' v => Forward (twoPeers .local) v v' ∧ v.Named :=
  loop_free
    ⟨by decide, List.isChain_pair.mpr (.peer rfl (rfl : _ = some Exec.local) ⟨by decide, 0, ∅, by decide⟩)⟩
    (by decide)

/-- each of two remote peers sends a behavior's call on to the other -/
theorem remote_peers_forward : Forward (twoPeers .remote) ⟨0, .invoke, behaviorCall⟩ ⟨1, .invoke, behaviorCall⟩ ∧
    Forward (twoPeers .remote) ⟨1, .invoke, behaviorCall⟩ ⟨0, .invoke, behaviorCall⟩ :=
  ⟨.peer rfl (rfl : _ = some Exec.remote) ⟨by decide, 0, ∅, by decide⟩,
    .peer rfl (rfl : _ = some Exec.remote) ⟨by decide, 0, ∅, by decide⟩⟩

/-- **Endless forwarding.** With a remote link the call comes back to its worker, and it never ends. -/
theorem remote_peers_loop :
    (¬ ∀ c l, Chain c l → (l.map Visit.worker).Nodup ∧ l.length ≤ c.workers.keys.card) ∧
      ¬ ∀ c, WellFounded fun v' v => Forward c v v' := by
  obtain ⟨there, back⟩ := remote_peers_forward
  constructor
  · intro h
    have hchain : Chain (twoPeers .remote)
        [⟨0, .invoke, behaviorCall⟩, ⟨1, .invoke, behaviorCall⟩, ⟨0, .invoke, behaviorCall⟩] :=
      ⟨by decide, List.isChain_cons_cons.mpr ⟨there, List.isChain_pair.mpr back⟩⟩
    exact absurd (h _ _ hchain).1 (by decide)
  · intro h
    have hend := (h (twoPeers .remote)).transGen.irrefl.irrefl (⟨0, .invoke, behaviorCall⟩ : Visit)
    exact hend (.tail (.single back) there)

end Forwarding

end BigWorlds
