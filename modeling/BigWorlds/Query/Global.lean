/-
Global queries (`process_query` of `worker/mod.rs` and the leader's part in it).

A worker with peers sends the query on to all of them, wherever it came from; a worker without peers asks the leader,
unless the call came through the leader, and the leader sends a fresh signal to every registered worker that is not
among the observers. The answers are merged with the local product. The queries that one query causes form a tree: a
worker is asked once for each chain of forwardings that leads to it.

- `Chain`: the chains of forwardings, read off the links;
- `processQuery_ok`: an `Ok` answer has merged one local product for each chain;
- `processQuery_returns`: with chains of bounded length, no rejections and products that merge, there is an answer;
- `query_complete_iff`: the answer has every worker's local product exactly once if and only if there is exactly one
  chain to each worker, and the layout is the plain one or the worker is alone;
- `mutual_links_iff`: where peer links go both ways, that means a worker without peers that is alone or connected to
  the leader, with all other workers registered there and without peers;
- `peers_never_answer`: two workers that are each other's peer ask each other for ever.

Local evaluation is an argument (`answer`). So is the order in which answers arrive, and what the tables of seen calls
have when a signal arrives (`Oracle`).
-/
import BigWorlds.Cluster.State
import BigWorlds.Query.Product
import Mathlib.Data.Finset.Sort
import Mathlib.Logic.Relation

namespace BigWorlds.GlobalQuery

open BigWorlds.Core (Exec)

/-! ## Model -/

/-- the products merged so far; ghost: the chain of forwardings that led to each of them, and the worker it is from -/
structure Collected where
  product : QueryProduct
  merged : List (List WorkerId × WorkerId)

/-- no answer yet, or the answer -/
abbrev Outcome := Option (Except Error Collected)

/-- what the environment decides, for the call that went along the given workers -/
structure Oracle where
  /-- the order in which the answers of these workers arrive -/
  order : List WorkerId → Finset WorkerId → List WorkerId
  order_val : ∀ tr s, (order tr s : Multiset WorkerId) = s.val
  micros : List WorkerId → UInt64
  /-- the identifier of the leader's signals -/
  uuid : List WorkerId → ℕ
  /-- the table of seen calls at the worker the call arrives at -/
  seen : List WorkerId → Inbox.SeenCalls

def Collected.none_ : Collected := ⟨.empty, []⟩

def andThen (r : Outcome) (f : Collected → Outcome) : Outcome :=
  match r with
  | none => none
  | some (.error e) => some (.error e)
  | some (.ok x) => f x

/-- merging products that do not merge panics, and the caller's channel closes -/
def Collected.merge (acc x : Collected) : Outcome :=
  match acc.product.merge x.product with
  | some product => some (.ok ⟨product, acc.merged ++ x.merged⟩)
  | none => some (.error (.tokioOneshotRecvError "channel closed"))

/-- the answers of these workers, merged one after another, up to the first error -/
def mergeEach (call : WorkerId → Outcome) : List WorkerId → Collected → Outcome
  | [], acc => some (.ok acc)
  | p :: ps, acc => andThen (call p) fun x => andThen (acc.merge x) (mergeEach call ps)

/-- errors come back through a local executor wrapped -/
def viaExec (exec : Exec) (r : Outcome) : Outcome :=
  match exec with
  | .remote => r
  | .local => r.map (Except.mapError .otherOf)

/-- the query arrives at the main loop of worker `p` -/
def arrive (o : Oracle) (tr : List WorkerId) (p : WorkerId) (exec : Exec) (ctx : Context)
    (handler : List WorkerId → WorkerId → Context → Outcome) : Outcome :=
  match (Inbox.receive p (o.micros (tr ++ [p])) (o.seen (tr ++ [p])) (Cluster.streamOf exec) ctx).2 with
  | .handled ctx' => andThen (handler (tr ++ [p]) p ctx') fun x =>
      some (.ok { x with merged := x.merged.map fun m => (p :: m.1, m.2) })
  | .rejected e => some (.error e)
  | .dropped => some (.error (.tokioOneshotRecvError "channel closed"))

/-- the context of the leader's own signals -/
def leaderCtx (o : Oracle) (tr : List WorkerId) : Context :=
  { Context.new (.v4 (o.uuid tr)) (o.micros tr) .unknown with origin := .participant .leader }

/-- the leader's arm for `WorkerProxy(ProcessQuery)` -/
def proxyQuery (o : Oracle) (c : Cluster) (tr : List WorkerId) (ctx : Context)
    (handler : List WorkerId → WorkerId → Context → Outcome) : Outcome :=
  mergeEach (fun r => match c.leader.workers.lookup r with
      | some exec => viaExec exec (arrive o tr r exec (leaderCtx o tr) handler)
      | none => some (.error (.other "worker is not registered")))
    (o.order tr (c.leader.workers.keys.filter fun r => r ∉ ctx.workerObservers)) .none_

/-- a worker without peers asks the leader, unless the call came through it; its own hop keeps the leader from asking
it again -/
def askLeader (o : Oracle) (c : Cluster) (tr : List WorkerId) (w : WorkerId) (st : WorkerState) (ctx : Context)
    (handler : List WorkerId → WorkerId → Context → Outcome) : Outcome :=
  if st.otherWorkers.keys = ∅ ∧ ctx.wentThroughLeader = false then
    let delta := (o.micros tr - ctx.initiatedAt).toUInt32
    match st.leader with
    | .connected lexec =>
      andThen (viaExec lexec (proxyQuery o c tr { ctx with hops := ctx.hops ++ [⟨.worker w, delta⟩] } handler))
        Collected.none_.merge
    | _ => some (.ok .none_)
  else some (.ok .none_)

/-- every peer is asked, also one the query came from -/
def askPeers (o : Oracle) (tr : List WorkerId) (st : WorkerState) (ctx : Context)
    (handler : List WorkerId → WorkerId → Context → Outcome) : Collected → Outcome :=
  mergeEach (fun p => match st.otherWorkers.lookup p with
      | some (.connected exec) => viaExec exec (arrive o tr p exec ctx handler)
      | _ => some (.error (.workerNotConnected "no direct connection available")))
    (o.order tr st.otherWorkers.keys)

/-- `process_query` with `Scope::Global`; the number bounds how deep queries may nest -/
def processQuery (answer : WorkerId → Except Error QueryProduct) (o : Oracle) (c : Cluster) :
    ℕ → List WorkerId → WorkerId → Context → Outcome
  | 0, _, _, _ => none
  | n + 1, tr, w, ctx =>
    match c.stateOf w with
    | none => some (.error (.tokioOneshotRecvError "channel closed"))
    | some st =>
      andThen (askLeader o c tr w st ctx (processQuery answer o c n)) fun product =>
        andThen (askPeers o tr st ctx (processQuery answer o c n) product) fun product =>
          match answer w with
          | .ok local_ => product.merge ⟨local_, [([], w)]⟩
          | .error e => some (.error e)

/-! ## Chains of forwardings -/

/-- the observers after a signal arrived over `exec` -/
def hop (exec : Exec) (p : WorkerId) (obs : List WorkerId) : List WorkerId :=
  match exec with
  | .local => obs ++ [p]
  | .remote => obs

/-- a query at worker `w`, with these observers in its context and `through` the leader or not, is forwarded along the
listed workers and is handled at worker `v` -/
inductive Chain (c : Cluster) : WorkerId → List WorkerId → Bool → List WorkerId → WorkerId → Prop
  | here (w : WorkerId) (obs : List WorkerId) (through : Bool) : Chain c w obs through [] w
  | peer {w p : WorkerId} {obs : List WorkerId} {through : Bool} {st : WorkerState} {exec : Exec} {l : List WorkerId}
    {v : WorkerId} (hst : c.stateOf w = some st) (hp : st.otherWorkers.lookup p = some (.connected exec))
    (h : Chain c p (hop exec p obs) through l v) : Chain c w obs through (p :: l) v
  | leader {w r : WorkerId} {obs : List WorkerId} {st : WorkerState} {lexec exec : Exec} {l : List WorkerId}
    {v : WorkerId} (hst : c.stateOf w = some st) (hn : st.otherWorkers.keys = ∅) (hl : st.leader = .connected lexec)
    (hr : c.leader.workers.lookup r = some exec) (ho : r ∉ obs ++ [w]) (h : Chain c r (hop exec r []) true l v) :
    Chain c w obs false (r :: l) v

/-! ## What is to hold -/

/-- the local product of a worker -/
def part (answer : WorkerId → Except Error QueryProduct) (v : WorkerId) : QueryProduct :=
  match answer v with
  | .ok product => product
  | .error _ => .empty

/-- the query is answered; each worker's local product went in exactly once, and the answer is their union -/
def Complete (answer : WorkerId → Except Error QueryProduct) (o : Oracle) (c : Cluster) (e : WorkerId)
    (ctx : Context) : Prop :=
  ∃ n r, processQuery answer o c n [] e ctx = some (.ok r) ∧
    (∀ v ∈ c.workers.keys, (r.merged.map Prod.snd).count v = 1) ∧ (∀ m ∈ r.merged, m.2 ∈ c.workers.keys) ∧
    QueryProduct.UnionOf (r.merged.map fun m => part answer m.2) r.product

/-- every link is up: peers are connected, and peers and registered workers are there -/
structure LinksUp (c : Cluster) : Prop where
  peers : ∀ w st p situation, c.stateOf w = some st → st.otherWorkers.lookup p = some situation →
    (∃ exec, situation = .connected exec) ∧ p ∈ c.workers.keys
  registered : ∀ r ∈ c.leader.workers.keys, r ∈ c.workers.keys

/-- a worker that one signal of the query reaches at most has none of the query's identifiers in its table -/
def Oracle.Fair (o : Oracle) (c : Cluster) (e : WorkerId) (ctx : Context) : Prop :=
  ∀ l v, Chain c e ctx.workerObservers false l v → (∀ l', Chain c e ctx.workerObservers false l' v → l' = l) →
    ctx.id ∉ o.seen l ∧ ∀ tr, .v4 (o.uuid tr) ∉ o.seen l

/-! ## Outcomes -/

theorem andThen_ok {r : Outcome} {f : Collected → Outcome} {y : Collected} (h : andThen r f = some (.ok y)) :
    ∃ x, r = some (.ok x) ∧ f x = some (.ok y) := by
  unfold andThen at h
  split at h
  · cases h
  · cases h
  · exact ⟨_, rfl, h⟩

theorem merge_ok {acc x y : Collected} (h : acc.merge x = some (.ok y)) :
    acc.product.merge x.product = some y.product ∧ y.merged = acc.merged ++ x.merged := by
  unfold Collected.merge at h
  split at h
  · rename_i product hp
    obtain rfl := Except.ok.inj (Option.some.inj h)
    exact ⟨hp, rfl⟩
  · cases h

theorem viaExec_ok {exec : Exec} {r : Outcome} {x : Collected} : viaExec exec r = some (.ok x) ↔ r = some (.ok x) := by
  cases exec with
  | remote => exact Iff.rfl
  | «local» =>
    rcases r with _ | (e | y)
    · exact Iff.rfl
    · simp [viaExec, Except.mapError]
    · simp [viaExec, Except.mapError]

/-- what an answer adds is accounted for: the product is the union of the local products recorded -/
structure Sound (answer : WorkerId → Except Error QueryProduct) (x : Collected) : Prop where
  union : QueryProduct.UnionOf (x.merged.map fun m => part answer m.2) x.product
  mergeable : x.product.Mergeable

theorem sound_none (answer : WorkerId → Except Error QueryProduct) : Sound answer .none_ := ⟨rfl, .inl rfl⟩

theorem Sound.merge {answer : WorkerId → Except Error QueryProduct} {acc x y : Collected} (h : Sound answer acc)
    (hx : Sound answer x) (hy : acc.merge x = some (.ok y)) : Sound answer y := by
  obtain ⟨hp, hm⟩ := merge_ok hy
  refine ⟨?_, QueryProduct.merge_mergeable h.mergeable hx.mergeable hp⟩
  rw [hm, List.map_append]
  exact h.union.merge hx.union h.mergeable hp

/-- **Merging answers.** Every call was answered `Ok`, and exactly what was merged before and what the answers had is
recorded. -/
theorem mergeEach_ok {answer : WorkerId → Except Error QueryProduct} {call : WorkerId → Outcome}
    (hcall : ∀ p x, call p = some (.ok x) → Sound answer x) (ps : List WorkerId) {acc y : Collected}
    (hacc : Sound answer acc) (h : mergeEach call ps acc = some (.ok y)) :
    Sound answer y ∧ (∀ p ∈ ps, ∃ x, call p = some (.ok x)) ∧
      (∀ m, m ∈ y.merged ↔ m ∈ acc.merged ∨ ∃ p ∈ ps, ∃ x, call p = some (.ok x) ∧ m ∈ x.merged) := by
  induction ps generalizing acc with
  | nil =>
    obtain rfl := Except.ok.inj (Option.some.inj h)
    exact ⟨hacc, by simp, by simp⟩
  | cons p ps ih =>
    obtain ⟨x, hx, h⟩ := andThen_ok h
    obtain ⟨z, hz, h⟩ := andThen_ok h
    obtain ⟨hy, hall, hmem⟩ := ih (hacc.merge (hcall p x hx) hz) h
    refine ⟨hy, ?_, fun m => ?_⟩
    · intro q hq
      rcases List.mem_cons.mp hq with rfl | hq
      · exact ⟨x, hx⟩
      · exact hall q hq
    · rw [hmem m, (merge_ok hz).2, List.mem_append]
      constructor
      · rintro ((hm | hm) | ⟨q, hq, rest⟩)
        · exact .inl hm
        · exact .inr ⟨p, List.mem_cons_self, x, hx, hm⟩
        · exact .inr ⟨q, List.mem_cons_of_mem _ hq, rest⟩
      · rintro (hm | ⟨q, hq, x', hx', hm⟩)
        · exact .inl (.inl hm)
        · rcases List.mem_cons.mp hq with rfl | hq
          · rw [hx] at hx'
            obtain rfl := Except.ok.inj (Option.some.inj hx')
            exact .inl (.inr hm)
          · exact .inr ⟨q, hq, x', hx', hm⟩

/-- the chains recorded for the answer of `p` start with `p` -/
def StartsWith (p : WorkerId) (x : Collected) : Prop := ∀ m ∈ x.merged, ∃ l, m.1 = p :: l

/-- answers of different workers never record one chain twice -/
theorem mergeEach_nodup {call : WorkerId → Outcome}
    (hcall : ∀ p x, call p = some (.ok x) → StartsWith p x ∧ x.merged.Nodup) (ps : List WorkerId)
    {acc y : Collected} (hps : ps.Nodup) (hacc : acc.merged.Nodup)
    (hdisj : ∀ m ∈ acc.merged, ∀ p ∈ ps, ∀ l, m.1 ≠ p :: l) (h : mergeEach call ps acc = some (.ok y)) :
    y.merged.Nodup := by
  induction ps generalizing acc with
  | nil =>
    obtain rfl := Except.ok.inj (Option.some.inj h)
    exact hacc
  | cons p ps ih =>
    obtain ⟨x, hx, h⟩ := andThen_ok h
    obtain ⟨z, hz, h⟩ := andThen_ok h
    obtain ⟨hstart, hnodup⟩ := hcall p x hx
    obtain ⟨hp, hps⟩ := List.nodup_cons.mp hps
    refine ih hps ?_ ?_ h
    · rw [(merge_ok hz).2]
      refine hacc.append hnodup fun m hm hm' => ?_
      obtain ⟨l, hl⟩ := hstart m hm'
      exact hdisj m hm p List.mem_cons_self l hl
    · intro m hm q hq l hl
      rw [(merge_ok hz).2] at hm
      rcases List.mem_append.mp hm with hm | hm
      · exact hdisj m hm q (List.mem_cons_of_mem _ hq) l hl
      · obtain ⟨l', hl'⟩ := hstart m hm
        rw [hl'] at hl
        exact hp ((List.cons.inj hl).1 ▸ hq)

/-! ## One arrival -/

theorem workerObservers_append (ctx : Context) (p : WorkerId) (delta : UInt32) :
    ({ ctx with hops := ctx.hops ++ [⟨.worker p, delta⟩] } : Context).workerObservers = ctx.workerObservers ++ [p] := by
  simp [Context.workerObservers]

theorem wentThroughLeader_append (ctx : Context) (p : WorkerId) (delta : UInt32) :
    ({ ctx with hops := ctx.hops ++ [⟨.worker p, delta⟩] } : Context).wentThroughLeader = ctx.wentThroughLeader := by
  simp [Context.wentThroughLeader]

/-- the context the handler at worker `p` gets -/
structure ArrivedWith (exec : Exec) (p : WorkerId) (ctx ctx' : Context) : Prop where
  id : ctx'.id = ctx.id
  observers : ctx'.workerObservers = hop exec p ctx.workerObservers
  through : ctx'.wentThroughLeader = ctx.wentThroughLeader

theorem arrivedWith_receive {exec : Exec} {p : WorkerId} {now : UInt64} {seen : Inbox.SeenCalls} {ctx ctx' : Context}
    (h : (Inbox.receive p now seen (Cluster.streamOf exec) ctx).2 = .handled ctx') : ArrivedWith exec p ctx ctx' := by
  cases exec with
  | remote =>
    obtain rfl : ctx' = ctx := Inbox.receive_handled h
    exact ⟨rfl, rfl, rfl⟩
  | «local» =>
    obtain rfl : ctx' = ctx.registerHop now (.worker p) := Inbox.receive_handled h
    exact ⟨rfl, workerObservers_append ctx p _, wentThroughLeader_append ctx p _⟩

theorem arrive_ok {o : Oracle} {tr : List WorkerId} {p : WorkerId} {exec : Exec} {ctx : Context}
    {handler : List WorkerId → WorkerId → Context → Outcome} {x : Collected}
    (h : arrive o tr p exec ctx handler = some (.ok x)) :
    ∃ ctx' y, ArrivedWith exec p ctx ctx' ∧ handler (tr ++ [p]) p ctx' = some (.ok y) ∧ x.product = y.product ∧
      x.merged = y.merged.map fun m => (p :: m.1, m.2) := by
  unfold arrive at h
  split at h
  · rename_i ctx' hctx
    obtain ⟨y, hy, h⟩ := andThen_ok h
    obtain rfl := Except.ok.inj (Option.some.inj h)
    exact ⟨ctx', y, arrivedWith_receive hctx, hy, rfl, rfl⟩
  · cases h
  · cases h

theorem mem_keys_of_stateOf {c : Cluster} {w : WorkerId} {st : WorkerState} (h : c.stateOf w = some st) :
    w ∈ c.workers.keys := by
  obtain ⟨node, hnode, -⟩ := Option.map_eq_some_iff.mp h
  exact FnvHashMap.mem_keys hnode

/-! ## An answer has one product for each chain -/

/-- what an `Ok` answer of worker `w` is like -/
structure Answers (answer : WorkerId → Except Error QueryProduct) (c : Cluster) (w : WorkerId) (obs : List WorkerId)
    (through : Bool) (r : Collected) : Prop where
  sound : Sound answer r
  nodup : r.merged.Nodup
  chains : ∀ l v, (l, v) ∈ r.merged ↔ Chain c w obs through l v

/-- the same at the caller's end, where the worker asked is put in front of each chain -/
theorem answers_arrive {answer : WorkerId → Except Error QueryProduct} {o : Oracle} {c : Cluster}
    {tr : List WorkerId} {p : WorkerId} {exec : Exec} {ctx : Context}
    {handler : List WorkerId → WorkerId → Context → Outcome} {x : Collected}
    (hh : ∀ tr w ctx r, handler tr w ctx = some (.ok r) →
      Answers answer c w ctx.workerObservers ctx.wentThroughLeader r)
    (h : viaExec exec (arrive o tr p exec ctx handler) = some (.ok x)) :
    Sound answer x ∧ StartsWith p x ∧ x.merged.Nodup ∧
      ∀ l v, (l, v) ∈ x.merged ↔ ∃ l', l = p :: l' ∧
        Chain c p (hop exec p ctx.workerObservers) ctx.wentThroughLeader l' v := by
  obtain ⟨ctx', y, hctx, hy, hprod, hmerged⟩ := arrive_ok (viaExec_ok.1 h)
  obtain ⟨hs, hn, hc⟩ := hh _ _ _ _ hy
  rw [hctx.observers, hctx.through] at hc
  refine ⟨⟨?_, hprod ▸ hs.mergeable⟩, ?_, ?_, fun l v => ?_⟩
  · rw [hprod, hmerged, List.map_map]
    exact hs.union
  · intro m hm
    rw [hmerged] at hm
    obtain ⟨m', -, rfl⟩ := List.mem_map.mp hm
    exact ⟨m'.1, rfl⟩
  · rw [hmerged]
    refine hn.map fun m m' hmm => ?_
    obtain ⟨h1, h2⟩ := Prod.mk.inj hmm
    exact Prod.ext (List.cons.inj h1).2 h2
  · rw [hmerged, List.mem_map]
    constructor
    · rintro ⟨⟨l', v'⟩, hm, he⟩
      obtain ⟨rfl, rfl⟩ := Prod.mk.inj he
      exact ⟨l', rfl, (hc l' v').mp hm⟩
    · rintro ⟨l', rfl, hch⟩
      exact ⟨(l', v), (hc l' v).mpr hch, rfl⟩

theorem mem_order (o : Oracle) (tr : List WorkerId) {s : Finset WorkerId} {p : WorkerId} :
    p ∈ o.order tr s ↔ p ∈ s := by
  rw [← Multiset.mem_coe, o.order_val]
  rfl

theorem nodup_order (o : Oracle) (tr : List WorkerId) (s : Finset WorkerId) : (o.order tr s).Nodup := by
  rw [← Multiset.coe_nodup, o.order_val]
  exact s.nodup

/-- the chains through the leader -/
def LeaderChain (c : Cluster) (w : WorkerId) (obs : List WorkerId) (through : Bool) (l : List WorkerId)
    (v : WorkerId) : Prop :=
  ∃ st lexec r exec l', c.stateOf w = some st ∧ st.otherWorkers.keys = ∅ ∧ through = false ∧
    st.leader = .connected lexec ∧ c.leader.workers.lookup r = some exec ∧ r ∉ obs ++ [w] ∧ l = r :: l' ∧
    Chain c r (hop exec r []) true l' v

/-- the chains through a peer -/
def PeerChain (c : Cluster) (w : WorkerId) (obs : List WorkerId) (through : Bool) (l : List WorkerId)
    (v : WorkerId) : Prop :=
  ∃ st p exec l', c.stateOf w = some st ∧ st.otherWorkers.lookup p = some (.connected exec) ∧ l = p :: l' ∧
    Chain c p (hop exec p obs) through l' v

theorem chain_iff {c : Cluster} {w : WorkerId} {obs : List WorkerId} {through : Bool} {l : List WorkerId}
    {v : WorkerId} : Chain c w obs through l v ↔
      (l = [] ∧ v = w) ∨ LeaderChain c w obs through l v ∨ PeerChain c w obs through l v := by
  constructor
  · intro h
    cases h with
    | here => exact .inl ⟨rfl, rfl⟩
    | peer hst hp h => exact .inr (.inr ⟨_, _, _, _, hst, hp, rfl, h⟩)
    | leader hst hn hl hr ho h => exact .inr (.inl ⟨_, _, _, _, _, hst, hn, rfl, hl, hr, ho, rfl, h⟩)
  · rintro (⟨rfl, rfl⟩ | ⟨st, lexec, r, exec, l', hst, hn, rfl, hl, hr, ho, rfl, h⟩ | ⟨st, p, exec, l', hst, hp, rfl, h⟩)
    · exact .here v obs through
    · exact .leader hst hn hl hr ho h
    · exact .peer hst hp h

theorem askLeader_ok {answer : WorkerId → Except Error QueryProduct} {o : Oracle} {c : Cluster}
    {tr : List WorkerId} {w : WorkerId} {st : WorkerState} {ctx : Context}
    {handler : List WorkerId → WorkerId → Context → Outcome} {x : Collected}
    (hh : ∀ tr w ctx r, handler tr w ctx = some (.ok r) →
      Answers answer c w ctx.workerObservers ctx.wentThroughLeader r) (hst : c.stateOf w = some st)
    (h : askLeader o c tr w st ctx handler = some (.ok x)) :
    Sound answer x ∧ x.merged.Nodup ∧
      ∀ l v, (l, v) ∈ x.merged ↔ LeaderChain c w ctx.workerObservers ctx.wentThroughLeader l v := by
  have hnone : ¬ (∃ lexec, st.otherWorkers.keys = ∅ ∧ ctx.wentThroughLeader = false ∧ st.leader = .connected lexec) →
      Sound answer .none_ ∧ Collected.none_.merged.Nodup ∧ ∀ l v, (l, v) ∈ Collected.none_.merged ↔
        LeaderChain c w ctx.workerObservers ctx.wentThroughLeader l v := by
    intro hno
    refine ⟨sound_none answer, List.nodup_nil, fun l v => ⟨fun hm => absurd hm List.not_mem_nil, ?_⟩⟩
    rintro ⟨st', lexec, r, exec, l', hst', hn, ht, hl, -⟩
    obtain rfl := Option.some.inj (hst.symm.trans hst')
    exact absurd ⟨lexec, hn, ht, hl⟩ hno
  unfold askLeader at h
  split_ifs at h with hk
  · split at h
    · rename_i lexec hl
      obtain ⟨y, hy, hx⟩ := andThen_ok h
      obtain ⟨hprod, hmerged⟩ := merge_ok hx
      have hproxy := viaExec_ok.1 hy
      unfold proxyQuery at hproxy
      have hcall : ∀ r z, (match c.leader.workers.lookup r with
          | some exec => viaExec exec (arrive o tr r exec (leaderCtx o tr) handler)
          | none => some (.error (.other "worker is not registered"))) = some (.ok z) →
          ∃ exec, c.leader.workers.lookup r = some exec ∧ Sound answer z ∧ StartsWith r z ∧ z.merged.Nodup ∧
            ∀ l v, (l, v) ∈ z.merged ↔ ∃ l', l = r :: l' ∧ Chain c r (hop exec r []) true l' v := by
        intro r z hz
        split at hz
        · rename_i exec hexec
          exact ⟨exec, hexec, answers_arrive hh hz⟩
        · cases hz
      obtain ⟨hs, hall, hmem⟩ := mergeEach_ok (fun r z hz => (hcall r z hz).choose_spec.2.1) _ (sound_none answer)
        hproxy
      have hnd : y.merged.Nodup := mergeEach_nodup
        (fun r z hz => ⟨(hcall r z hz).choose_spec.2.2.1, (hcall r z hz).choose_spec.2.2.2.1⟩) _ (nodup_order o tr _)
        List.nodup_nil (fun m hm => absurd hm List.not_mem_nil) hproxy
      have hxy : x = y := by
        cases x with
        | mk product merged =>
          obtain rfl : y.product = product := Option.some.inj hprod
          rw [show merged = y.merged from hmerged]
      subst hxy
      refine ⟨hs, hnd, fun l v => ?_⟩
      rw [hmem]
      constructor
      · rintro (hm | ⟨r, hr, z, hz, hm⟩)
        · exact absurd hm List.not_mem_nil
        · rw [mem_order, Finset.mem_filter, workerObservers_append] at hr
          obtain ⟨exec, hexec, -, -, -, hch⟩ := hcall r z hz
          obtain ⟨l', hl', hch⟩ := (hch l v).mp hm
          exact ⟨st, lexec, r, exec, l', hst, hk.1, hk.2, hl, hexec, hr.2, hl', hch⟩
      · rintro ⟨st', lexec', r, exec, l', -, -, -, -, hexec, ho, hl', hch⟩
        have hr : r ∈ o.order tr (c.leader.workers.keys.filter fun r => r ∉
            ({ ctx with hops := ctx.hops ++ [⟨.worker w, (o.micros tr - ctx.initiatedAt).toUInt32⟩] } :
              Context).workerObservers) := by
          rw [mem_order, Finset.mem_filter, workerObservers_append]
          exact ⟨FnvHashMap.mem_keys hexec, ho⟩
        obtain ⟨z, hz⟩ := hall r hr
        obtain ⟨exec', hexec', -, -, -, hchz⟩ := hcall r z hz
        obtain rfl := Option.some.inj (hexec.symm.trans hexec')
        exact .inr ⟨r, hr, z, hz, (hchz l v).mpr ⟨l', hl', hch⟩⟩
    · rename_i hl
      obtain rfl := Except.ok.inj (Option.some.inj h)
      exact hnone fun ⟨lexec, _, _, hl'⟩ => hl lexec hl'
  · obtain rfl := Except.ok.inj (Option.some.inj h)
    exact hnone fun ⟨_, hn, ht, _⟩ => hk ⟨hn, ht⟩

/-- a worker with peers has nothing from the leader -/
theorem merged_nil_of_peers {c : Cluster} {w : WorkerId} {obs : List WorkerId} {through : Bool} {st : WorkerState}
    {a : Collected} (hst : c.stateOf w = some st)
    (h : ∀ l v, (l, v) ∈ a.merged ↔ LeaderChain c w obs through l v) (hk : st.otherWorkers.keys ≠ ∅) :
    a.merged = [] := by
  refine List.eq_nil_iff_forall_not_mem.mpr fun m hm => ?_
  obtain ⟨st', lexec, r', exec, l', hst', hn, -⟩ := (h m.1 m.2).mp hm
  obtain rfl := Option.some.inj (hst.symm.trans hst')
  exact hk hn

theorem askPeers_ok {answer : WorkerId → Except Error QueryProduct} {o : Oracle} {c : Cluster}
    {tr : List WorkerId} {w : WorkerId} {st : WorkerState} {ctx : Context}
    {handler : List WorkerId → WorkerId → Context → Outcome} {acc x : Collected}
    (hh : ∀ tr w ctx r, handler tr w ctx = some (.ok r) →
      Answers answer c w ctx.workerObservers ctx.wentThroughLeader r) (hst : c.stateOf w = some st)
    (hacc : Sound answer acc) (hn : acc.merged.Nodup) (hnil : st.otherWorkers.keys ≠ ∅ → acc.merged = [])
    (h : askPeers o tr st ctx handler acc = some (.ok x)) :
    Sound answer x ∧ x.merged.Nodup ∧ ∀ l v, (l, v) ∈ x.merged ↔
      (l, v) ∈ acc.merged ∨ PeerChain c w ctx.workerObservers ctx.wentThroughLeader l v := by
  have hcall : ∀ p z, (match st.otherWorkers.lookup p with
      | some (.connected exec) => viaExec exec (arrive o tr p exec ctx handler)
      | _ => some (.error (.workerNotConnected "no direct connection available"))) = some (.ok z) →
      ∃ exec, st.otherWorkers.lookup p = some (.connected exec) ∧ Sound answer z ∧ StartsWith p z ∧ z.merged.Nodup ∧
        ∀ l v, (l, v) ∈ z.merged ↔ ∃ l', l = p :: l' ∧
          Chain c p (hop exec p ctx.workerObservers) ctx.wentThroughLeader l' v := by
    intro p z hz
    split at hz
    · rename_i exec hexec
      exact ⟨exec, hexec, answers_arrive hh hz⟩
    · cases hz
  unfold askPeers at h
  obtain ⟨hs, hall, hmem⟩ := mergeEach_ok (fun p z hz => (hcall p z hz).choose_spec.2.1) _ hacc h
  refine ⟨hs, ?_, fun l v => ?_⟩
  · refine mergeEach_nodup (fun p z hz => ⟨(hcall p z hz).choose_spec.2.2.1, (hcall p z hz).choose_spec.2.2.2.1⟩) _
      (nodup_order o tr _) hn (fun m hm p hp => ?_) h
    rw [hnil (Finset.ne_empty_of_mem ((mem_order o tr).mp hp))] at hm
    exact absurd hm List.not_mem_nil
  · rw [hmem]
    refine or_congr Iff.rfl ⟨?_, ?_⟩
    · rintro ⟨p, -, z, hz, hm⟩
      obtain ⟨exec, hexec, -, -, -, hch⟩ := hcall p z hz
      obtain ⟨l', hl', hch⟩ := (hch l v).mp hm
      exact ⟨st, p, exec, l', hst, hexec, hl', hch⟩
    · rintro ⟨st', p, exec, l', hst', hexec, hl', hch⟩
      obtain rfl := Option.some.inj (hst.symm.trans hst')
      have hp : p ∈ o.order tr st.otherWorkers.keys := (mem_order o tr).mpr (FnvHashMap.mem_keys hexec)
      obtain ⟨z, hz⟩ := hall p hp
      obtain ⟨exec', hexec', -, -, -, hchz⟩ := hcall p z hz
      obtain rfl := WorkerSituation.connected.inj (Option.some.inj (hexec.symm.trans hexec'))
      exact ⟨p, hp, z, hz, (hchz l v).mpr ⟨l', hl', hch⟩⟩

/-- **An `Ok` answer** has merged one local product for each chain of forwardings. -/
theorem processQuery_ok {answer : WorkerId → Except Error QueryProduct} {o : Oracle} {c : Cluster}
    (hans : ∀ v ∈ c.workers.keys, ∃ p layout, answer v = .ok p ∧ p.Addressed layout) (n : ℕ) {tr : List WorkerId}
    {w : WorkerId} {ctx : Context} {r : Collected} (h : processQuery answer o c n tr w ctx = some (.ok r)) :
    Answers answer c w ctx.workerObservers ctx.wentThroughLeader r := by
  induction n generalizing tr w ctx r with
  | zero => cases h
  | succ n ih =>
    unfold processQuery at h
    split at h
    · cases h
    · rename_i st hst
      obtain ⟨a, ha, h⟩ := andThen_ok h
      obtain ⟨b, hb, h⟩ := andThen_ok h
      obtain ⟨hsa, hna, hca⟩ := askLeader_ok (fun _ _ _ _ => ih) hst ha
      have hnil := merged_nil_of_peers hst hca
      obtain ⟨hsb, hnb, hcb⟩ := askPeers_ok (fun _ _ _ _ => ih) hst hsa hna hnil hb
      split at h
      · rename_i product hproduct
        have hlocal : Sound answer ⟨product, [([], w)]⟩ := by
          have hpart : part answer w = product := by rw [part, hproduct]
          obtain ⟨product', layout, hans', hlayout⟩ := hans w (mem_keys_of_stateOf hst)
          obtain rfl := Except.ok.inj (hproduct.symm.trans hans')
          refine ⟨?_, .inr ⟨layout, hlayout⟩⟩
          rw [List.map_singleton, hpart]
          exact QueryProduct.unionOf_singleton hlayout
        obtain ⟨-, hmerged⟩ := merge_ok h
        refine ⟨hsb.merge hlocal h, ?_, fun l v => ?_⟩
        · rw [hmerged]
          refine hnb.append (List.nodup_singleton _) fun m hm hm' => ?_
          obtain rfl := List.mem_singleton.mp hm'
          rcases (hcb [] w).mp hm with hm | ⟨_, _, _, _, _, _, hl, -⟩
          · obtain ⟨_, _, _, _, _, _, _, _, _, _, _, hl, -⟩ := (hca [] w).mp hm
            cases hl
          · cases hl
        · rw [hmerged, List.mem_append, hcb, hca, chain_iff, List.mem_singleton, Prod.mk.injEq]
          tauto
      · cases h

/-! ## When there is an answer -/

/-- the identifiers of a query's signals -/
def Known (o : Oracle) (ctx₀ : Context) (i : Uuid) : Prop := i = ctx₀.id ∨ ∃ tr, i = .v4 (o.uuid tr)

/-- a signal whose identifier is not in the table is handled -/
theorem arrive_returns {o : Oracle} {tr : List WorkerId} {p : WorkerId} {exec : Exec} {ctx : Context}
    {handler : List WorkerId → WorkerId → Context → Outcome} (hseen : ctx.id ∉ o.seen (tr ++ [p]))
    (hh : ∀ ctx', ArrivedWith exec p ctx ctx' → ∃ y, handler (tr ++ [p]) p ctx' = some (.ok y)) :
    ∃ x, arrive o tr p exec ctx handler = some (.ok x) := by
  have hhandled := (Inbox.receive_fresh p (o.micros (tr ++ [p])) (Cluster.streamOf exec)
    (Finmap.lookup_eq_none.mpr hseen)).1
  unfold arrive
  cases hout : (Inbox.receive p (o.micros (tr ++ [p])) (o.seen (tr ++ [p])) (Cluster.streamOf exec) ctx).2 with
  | handled ctx' =>
    obtain ⟨y, hy⟩ := hh ctx' (arrivedWith_receive hout)
    simp only [hy, andThen]
    exact ⟨_, rfl⟩
  | rejected e =>
    rw [hout] at hhandled
    cases hhandled
  | dropped =>
    rw [hout] at hhandled
    cases hhandled

/-- an answer of the layout merges into this -/
def Open (layout : Layout) (product : QueryProduct) : Prop :=
  product = .empty ∨ (layout = .var ∧ ∃ map, product = .addressedVar map)

theorem Open.merge {layout : Layout} {acc x : Collected} (h : Open layout acc.product)
    (hx : x.product.Addressed layout) : ∃ y, acc.merge x = some (.ok y) ∧ y.product.Addressed layout := by
  unfold Collected.merge
  rcases h with h | ⟨rfl, map, h⟩
  · rw [h]
    exact ⟨_, rfl, hx⟩
  · obtain ⟨map', hmap'⟩ := hx
    rw [h, hmap']
    exact ⟨_, rfl, _, rfl⟩

/-- answers in the plain layout merge -/
theorem mergeEach_returns {layout : Layout} {call : WorkerId → Outcome} (ps : List WorkerId) {acc : Collected}
    (hcall : ∀ p ∈ ps, layout = .var ∧ ∃ x, call p = some (.ok x) ∧ x.product.Addressed layout)
    (hacc : Open layout acc.product) : ∃ y, mergeEach call ps acc = some (.ok y) ∧ Open layout y.product := by
  induction ps generalizing acc with
  | nil => exact ⟨acc, rfl, hacc⟩
  | cons p ps ih =>
    obtain ⟨hvar, x, hx, hxp⟩ := hcall p List.mem_cons_self
    obtain ⟨z, hz, hzp⟩ := hacc.merge hxp
    have hopen : Open layout z.product := by
      subst hvar
      exact .inr ⟨rfl, hzp⟩
    obtain ⟨y, hy, hyp⟩ := ih (fun q hq => hcall q (List.mem_cons_of_mem _ hq)) hopen
    refine ⟨y, ?_, hyp⟩
    simp only [mergeEach, hx, andThen, hz]
    exact hy

/-- what the answer of a worker takes: chains shorter than the bound, no identifier of the query in a table on the way,
and a layout whose products merge, if any have to -/
structure Ready (o : Oracle) (c : Cluster) (ctx₀ : Context) (layout : Layout) (n : ℕ) (tr : List WorkerId)
    (w : WorkerId) (obs : List WorkerId) (through : Bool) : Prop where
  short : ∀ l v, Chain c w obs through l v → l.length < n
  fresh : ∀ l v, Chain c w obs through l v → l ≠ [] → ∀ i, Known o ctx₀ i → i ∉ o.seen (tr ++ l)
  plain : layout = .var ∨ ∀ l v, Chain c w obs through l v → l = []

/-- one forwarding on -/
theorem Ready.forward {o : Oracle} {c : Cluster} {ctx₀ : Context} {layout : Layout} {n : ℕ} {tr : List WorkerId}
    {w p : WorkerId} {obs obs' : List WorkerId} {through through' : Bool}
    (h : Ready o c ctx₀ layout (n + 1) tr w obs through)
    (hp : ∀ l v, Chain c p obs' through' l v → Chain c w obs through (p :: l) v) :
    layout = .var ∧ (∀ i, Known o ctx₀ i → i ∉ o.seen (tr ++ [p])) ∧
      Ready o c ctx₀ layout n (tr ++ [p]) p obs' through' := by
  have hvar : layout = .var := by
    rcases h.plain with hv | hno
    · exact hv
    · exact absurd (hno [p] p (hp [] p (.here p obs' through'))) (List.cons_ne_nil p [])
  refine ⟨hvar, h.fresh [p] p (hp [] p (.here p obs' through')) (List.cons_ne_nil p []), ⟨?_, ?_, .inl hvar⟩⟩
  · intro l v hl
    have hlt := h.short (p :: l) v (hp l v hl)
    rw [List.length_cons] at hlt
    omega
  · intro l v hl _ i hi
    rw [List.append_assoc, List.singleton_append]
    exact h.fresh (p :: l) v (hp l v hl) (List.cons_ne_nil p l) i hi

/-- **When there is an answer.** -/
theorem processQuery_returns {answer : WorkerId → Except Error QueryProduct} {o : Oracle} {c : Cluster}
    {ctx₀ : Context} {layout : Layout} (hup : LinksUp c)
    (hans : ∀ v ∈ c.workers.keys, ∃ p, answer v = .ok p ∧ p.Addressed layout) (n : ℕ) {tr : List WorkerId}
    {w : WorkerId} {ctx : Context} (hw : w ∈ c.workers.keys) (hid : Known o ctx₀ ctx.id)
    (h : Ready o c ctx₀ layout n tr w ctx.workerObservers ctx.wentThroughLeader) :
    ∃ r, processQuery answer o c n tr w ctx = some (.ok r) ∧ r.product.Addressed layout := by
  induction n generalizing tr w ctx with
  | zero => exact absurd (h.short [] w (.here w _ _)) (Nat.not_lt_zero _)
  | succ n ih =>
    obtain ⟨node, hnode⟩ : ∃ node, c.workers.lookup w = some node := Finmap.mem_iff.mp (Finmap.mem_keys.mp hw)
    have hst : c.stateOf w = some node.state := by rw [Cluster.stateOf, hnode]; rfl
    -- one call, once it is known to be a forwarding
    have hcall : ∀ p exec ctx', p ∈ c.workers.keys → Known o ctx₀ ctx'.id →
        (∀ l v, Chain c p (hop exec p ctx'.workerObservers) ctx'.wentThroughLeader l v →
          Chain c w ctx.workerObservers ctx.wentThroughLeader (p :: l) v) →
        layout = .var ∧ ∃ x, viaExec exec (arrive o tr p exec ctx' (processQuery answer o c n)) = some (.ok x) ∧
          x.product.Addressed layout := by
      intro p exec ctx' hp hid' hchain
      obtain ⟨hvar, hseen, hready⟩ := h.forward hchain
      have hnext : ∀ ctx'', ArrivedWith exec p ctx' ctx'' →
          ∃ r, processQuery answer o c n (tr ++ [p]) p ctx'' = some (.ok r) ∧ r.product.Addressed layout := by
        intro ctx'' harr
        exact ih hp (harr.id ▸ hid') (by rwa [harr.observers, harr.through])
      obtain ⟨x, hx⟩ : ∃ x, arrive o tr p exec ctx' (processQuery answer o c n) = some (.ok x) := by
        refine arrive_returns (hseen ctx'.id hid') fun ctx'' harr => ?_
        obtain ⟨y, hy, -⟩ := hnext ctx'' harr
        exact ⟨y, hy⟩
      refine ⟨hvar, x, viaExec_ok.2 hx, ?_⟩
      obtain ⟨ctx'', y, harr, hy, hprod, -⟩ := arrive_ok hx
      obtain ⟨y', hy', hyp⟩ := hnext ctx'' harr
      rw [hy] at hy'
      obtain rfl := Except.ok.inj (Option.some.inj hy')
      exact hprod ▸ hyp
    obtain ⟨a, ha, hap⟩ : ∃ a, askLeader o c tr w node.state ctx (processQuery answer o c n) = some (.ok a) ∧
        Open layout a.product := by
      unfold askLeader
      split_ifs with hk
      · split
        · rename_i lexec hl
          obtain ⟨y, hy, hyp⟩ : ∃ y, proxyQuery o c tr
              { ctx with hops := ctx.hops ++ [⟨.worker w, (o.micros tr - ctx.initiatedAt).toUInt32⟩] }
              (processQuery answer o c n) = some (.ok y) ∧ Open layout y.product := by
            refine mergeEach_returns _ (fun r hr => ?_) (.inl rfl)
            rw [mem_order, Finset.mem_filter, workerObservers_append] at hr
            obtain ⟨exec, hexec⟩ := Finmap.mem_iff.mp (Finmap.mem_keys.mp hr.1)
            simp only [hexec]
            refine hcall r exec (leaderCtx o tr) (hup.registered r hr.1) (.inr ⟨tr, rfl⟩) fun l v hch => ?_
            rw [hk.2]
            exact .leader hst hk.1 hl hexec hr.2 hch
          simp only [viaExec_ok.2 hy]
          exact ⟨y, by cases y; rfl, hyp⟩
        · exact ⟨_, rfl, .inl rfl⟩
      · exact ⟨_, rfl, .inl rfl⟩
    obtain ⟨b, hb, hbp⟩ : ∃ b, askPeers o tr node.state ctx (processQuery answer o c n) a = some (.ok b) ∧
        Open layout b.product := by
      refine mergeEach_returns _ (fun p hp => ?_) hap
      obtain ⟨situation, hsit⟩ := Finmap.mem_iff.mp (Finmap.mem_keys.mp ((mem_order o tr).mp hp))
      obtain ⟨⟨exec, rfl⟩, hpk⟩ := hup.peers w node.state p situation hst hsit
      simp only [hsit]
      exact hcall p exec ctx hpk hid fun l v hch => .peer hst hsit hch
    obtain ⟨product, hproduct, hlayout⟩ := hans w hw
    obtain ⟨r, hr, hrp⟩ := hbp.merge (x := ⟨product, [([], w)]⟩) hlayout
    refine ⟨r, ?_, hrp⟩
    unfold processQuery
    simp only [hst, ha, andThen, hb, hproduct]
    exact hr

/-! ## When an answer is complete -/

/-- the beginnings of a chain are chains to workers of the cluster -/
theorem Chain.take {c : Cluster} (hup : LinksUp c) {w : WorkerId} {obs : List WorkerId} {through : Bool}
    {l : List WorkerId} {v : WorkerId} (h : Chain c w obs through l v) (hw : w ∈ c.workers.keys) (k : ℕ) :
    ∃ u ∈ c.workers.keys, Chain c w obs through (l.take k) u := by
  induction h generalizing k with
  | here w obs through => exact ⟨w, hw, by rw [List.take_nil]; exact .here w obs through⟩
  | @peer w p obs through st exec l v hst hp _ ih =>
    cases k with
    | zero => exact ⟨w, hw, .here w obs through⟩
    | succ k =>
      obtain ⟨u, hu, hch⟩ := ih (hup.peers w st p _ hst hp).2 k
      exact ⟨u, hu, .peer hst hp hch⟩
  | @leader w r obs st lexec exec l v hst hn hl hr ho _ ih =>
    cases k with
    | zero => exact ⟨w, hw, .here w obs false⟩
    | succ k =>
      obtain ⟨u, hu, hch⟩ := ih (hup.registered r (FnvHashMap.mem_keys hr)) k
      exact ⟨u, hu, .leader hst hn hl hr ho hch⟩

theorem Chain.end_mem {c : Cluster} (hup : LinksUp c) {w : WorkerId} {obs : List WorkerId} {through : Bool}
    {l : List WorkerId} {v : WorkerId} (h : Chain c w obs through l v) (hw : w ∈ c.workers.keys) :
    v ∈ c.workers.keys := by
  induction h with
  | here => exact hw
  | peer hst hp _ ih => exact ih (hup.peers _ _ _ _ hst hp).2
  | leader hst hn hl hr ho _ ih => exact ih (hup.registered _ (FnvHashMap.mem_keys hr))

/-- with one chain to each worker, a chain never comes back to a worker and is shorter than the cluster -/
theorem length_lt_card {c : Cluster} (hup : LinksUp c) {e : WorkerId} (he : e ∈ c.workers.keys) {obs : List WorkerId}
    {through : Bool} (huniq : ∀ v ∈ c.workers.keys, ∃! l, Chain c e obs through l v) {l : List WorkerId}
    {v : WorkerId} (h : Chain c e obs through l v) : l.length < c.workers.keys.card := by
  choose u hu hch using fun k => h.take hup he k
  have hinj : Set.InjOn u (Finset.range (l.length + 1) : Set ℕ) := by
    intro i hi j hj hij
    have hsame : l.take i = l.take j := (huniq (u i) (hu i)).unique (hch i) (hij ▸ hch j)
    have hlen := congrArg List.length hsame
    rw [List.length_take, List.length_take] at hlen
    simp only [Finset.coe_range, Set.mem_Iio] at hi hj
    omega
  have hcard := Finset.card_le_card_of_injOn u (fun i _ => hu i) hinj
  rw [Finset.card_range] at hcard
  omega

/-- recorded once: one chain leads there -/
theorem once_iff {ms : List (List WorkerId × WorkerId)} (hn : ms.Nodup) (v : WorkerId) :
    (ms.map Prod.snd).count v = 1 ↔ ∃! l, (l, v) ∈ ms := by
  induction ms with
  | nil => simp [ExistsUnique]
  | cons m ms ih =>
    obtain ⟨l, u⟩ := m
    obtain ⟨hm, hn⟩ := List.nodup_cons.mp hn
    rw [List.map_cons, List.count_cons]
    by_cases hu : u = v
    · subst hu
      simp only [beq_self_eq_true, if_true, Nat.add_eq_right, List.count_eq_zero]
      constructor
      · intro hno
        refine ⟨l, List.mem_cons_self, fun l' hl' => ?_⟩
        rcases List.mem_cons.mp hl' with he | he
        · exact (Prod.mk.inj he).1
        · exact absurd (List.mem_map.mpr ⟨_, he, rfl⟩) hno
      · rintro ⟨l₀, -, hall⟩ hmem
        obtain ⟨⟨l', u'⟩, hl', rfl⟩ := List.mem_map.mp hmem
        have h1 := hall l' (List.mem_cons_of_mem _ hl')
        have h2 := hall l List.mem_cons_self
        exact hm (by rw [h2, ← h1]; exact hl')
    · have hbeq : (u == v) = false := beq_eq_false_iff_ne.mpr hu
      rw [hbeq, if_neg Bool.false_ne_true, Nat.add_zero, ih hn]
      have hmem : ∀ l', (l', v) ∈ (l, u) :: ms ↔ (l', v) ∈ ms := by
        intro l'
        rw [List.mem_cons, or_iff_right fun he => hu (Prod.mk.inj he).2.symm]
      simp only [hmem]

/-- products of the typed layout do not merge: the worker answered alone -/
theorem typed_alone {answer : WorkerId → Except Error QueryProduct} {o : Oracle} {c : Cluster}
    (hans : ∀ v ∈ c.workers.keys, ∃ p, answer v = .ok p ∧ p.Addressed .typed) {n : ℕ} {tr : List WorkerId}
    {w : WorkerId} {ctx : Context} {r : Collected} (h : processQuery answer o c n tr w ctx = some (.ok r)) :
    r.merged = [([], w)] := by
  have hans' : ∀ v ∈ c.workers.keys, ∃ p layout, answer v = .ok p ∧ p.Addressed layout := fun v hv => by
    obtain ⟨p, hp, hl⟩ := hans v hv
    exact ⟨p, .typed, hp, hl⟩
  cases n with
  | zero => cases h
  | succ n =>
    unfold processQuery at h
    split at h
    · cases h
    · rename_i st hst
      obtain ⟨a, ha, h⟩ := andThen_ok h
      obtain ⟨b, hb, h⟩ := andThen_ok h
      obtain ⟨hsa, hna, hca⟩ := askLeader_ok (fun _ _ _ _ => processQuery_ok hans' n) hst ha
      have hnil := merged_nil_of_peers hst hca
      obtain ⟨hsb, -, -⟩ := askPeers_ok (fun _ _ _ _ => processQuery_ok hans' n) hst hsa hna hnil hb
      obtain ⟨product, hproduct, map, rfl⟩ := hans w (mem_keys_of_stateOf hst)
      rw [hproduct] at h
      obtain ⟨hprod, hmerged⟩ := merge_ok h
      have hempty : b.product = .empty := by
        rcases hsb.mergeable with he | ⟨layout, hl⟩
        · exact he
        · cases layout with
          | var =>
            obtain ⟨map', hmap'⟩ := hl
            rw [hmap'] at hprod
            cases hprod
          | typed =>
            obtain ⟨map', hmap'⟩ := hl
            rw [hmap'] at hprod
            cases hprod
          | string => exact hl.elim
      have hb0 : b.merged = [] := by
        have hu := hsb.union
        rw [hempty] at hu
        exact List.map_eq_nil_iff.mp hu
      rw [hmerged, hb0, List.nil_append]

/-- **When a global query is complete.** With every link up and every local evaluation answered, a query that has not
been through the leader is answered with each worker's local product exactly once if and only if one chain of
forwardings leads to each worker, and its products merge: the layout is the plain one, or the worker is alone. -/
theorem query_complete_iff (answer : WorkerId → Except Error QueryProduct) (o : Oracle) (c : Cluster) (e : WorkerId)
    (ctx : Context) (layout : Layout) (hup : LinksUp c) (he : e ∈ c.workers.keys)
    (hans : ∀ v ∈ c.workers.keys, ∃ p, answer v = .ok p ∧ p.Addressed layout) (hctx : ctx.wentThroughLeader = false)
    (hfair : o.Fair c e ctx) :
    Complete answer o c e ctx ↔ (layout = .var ∨ c.workers.keys = {e}) ∧
      ∀ v ∈ c.workers.keys, ∃! l, Chain c e ctx.workerObservers false l v := by
  have hans' : ∀ v ∈ c.workers.keys, ∃ p layout, answer v = .ok p ∧ p.Addressed layout := fun v hv => by
    obtain ⟨p, hp, hl⟩ := hans v hv
    exact ⟨p, layout, hp, hl⟩
  constructor
  · rintro ⟨n, r, hr, honce, -, -⟩
    obtain ⟨-, hnodup, hchains⟩ := processQuery_ok hans' n hr
    rw [hctx] at hchains
    refine ⟨?_, fun v hv => ?_⟩
    · cases layout with
      | var => exact .inl rfl
      | string =>
        obtain ⟨p, -, hp⟩ := hans e he
        exact hp.elim
      | typed =>
        refine .inr (Finset.eq_singleton_iff_unique_mem.mpr ⟨he, fun v hv => ?_⟩)
        have hv1 := honce v hv
        rw [typed_alone hans hr] at hv1
        have hmem : v ∈ [([], e)].map (Prod.snd : List WorkerId × WorkerId → WorkerId) :=
          List.count_pos_iff.mp (by rw [hv1]; exact Nat.one_pos)
        exact List.mem_singleton.mp hmem
    · have hv1 := (once_iff hnodup v).mp (honce v hv)
      simpa only [hchains] using hv1
  · rintro ⟨hlayout, huniq⟩
    have hready : Ready o c ctx layout c.workers.keys.card [] e ctx.workerObservers ctx.wentThroughLeader := by
      rw [hctx]
      refine ⟨fun l v h => length_lt_card hup he huniq h, fun l v h _ i hi => ?_, ?_⟩
      · have hv := h.end_mem hup he
        obtain ⟨h1, h2⟩ := hfair l v h fun l' h' => (huniq v hv).unique h' h
        rw [List.nil_append]
        rcases hi with rfl | ⟨tr, rfl⟩
        · exact h1
        · exact h2 tr
      · rcases hlayout with hl | hone
        · exact .inl hl
        · refine .inr fun l v h => ?_
          have hv := h.end_mem hup he
          rw [hone, Finset.mem_singleton] at hv
          subst hv
          exact (huniq v he).unique h (.here v _ _)
    obtain ⟨r, hr, -⟩ := processQuery_returns hup hans _ he (.inl rfl) hready
    obtain ⟨hs, hnodup, hchains⟩ := processQuery_ok hans' _ hr
    rw [hctx] at hchains
    refine ⟨_, r, hr, fun v hv => ?_, fun m hm => ?_, hs.union⟩
    · rw [once_iff hnodup v]
      simpa only [hchains] using huniq v hv
    · exact ((hchains m.1 m.2).mp hm).end_mem hup he

/-! ## Peer links that go both ways -/

/-- the worker is there and has no peers -/
def Peerless (c : Cluster) (v : WorkerId) : Prop := ∃ st, c.stateOf v = some st ∧ st.otherWorkers.keys = ∅

theorem Peerless.chain {c : Cluster} {v : WorkerId} (h : Peerless c v) {obs : List WorkerId} {l : List WorkerId}
    {u : WorkerId} (hch : Chain c v obs true l u) : l = [] ∧ u = v := by
  obtain ⟨st, hst, hk⟩ := h
  rcases chain_iff.1 hch with h | ⟨_, _, _, _, _, _, _, ht, -⟩ | ⟨st', p, exec, _, hst', hp, -⟩
  · exact h
  · cases ht
  · obtain rfl := Option.some.inj (hst.symm.trans hst')
    have hmem : p ∈ st.otherWorkers.keys := FnvHashMap.mem_keys hp
    rw [hk] at hmem
    exact absurd hmem (Finset.notMem_empty p)

/-- a worker with a peer is asked back by it -/
theorem peerless_of_unique {c : Cluster} (hup : LinksUp c)
    (hmutual : ∀ v u stv stu, c.stateOf v = some stv → c.stateOf u = some stu → u ∈ stv.otherWorkers.keys →
      v ∈ stu.otherWorkers.keys) {v : WorkerId} (hv : v ∈ c.workers.keys) {obs : List WorkerId} {through : Bool}
    (h : ∀ l, Chain c v obs through l v → l = []) : Peerless c v := by
  obtain ⟨node, hnode⟩ := Finmap.mem_iff.mp (Finmap.mem_keys.mp hv)
  have hst : c.stateOf v = some node.state := by rw [Cluster.stateOf, hnode]; rfl
  refine ⟨node.state, hst, ?_⟩
  by_contra hne
  obtain ⟨p, hp⟩ := Finset.nonempty_iff_ne_empty.mpr hne
  obtain ⟨situation, hsit⟩ := Finmap.mem_iff.mp (Finmap.mem_keys.mp hp)
  obtain ⟨⟨exec, rfl⟩, hpk⟩ := hup.peers v node.state p situation hst hsit
  obtain ⟨nodep, hnodep⟩ := Finmap.mem_iff.mp (Finmap.mem_keys.mp hpk)
  have hstp : c.stateOf p = some nodep.state := by rw [Cluster.stateOf, hnodep]; rfl
  obtain ⟨situation', hsit'⟩ := Finmap.mem_iff.mp (Finmap.mem_keys.mp (hmutual v p _ _ hst hstp hp))
  obtain ⟨⟨exec', rfl⟩, -⟩ := hup.peers p nodep.state v situation' hstp hsit'
  exact absurd (h [p, v] (.peer hst hsit (.peer hstp hsit' (.here v _ _)))) (List.cons_ne_nil p [v])

/-- **Peer links that go both ways.** One chain leads to each worker exactly when the entry worker has no peers and is
alone, or is connected to the leader where all others are registered, and these have no peers either. -/
theorem mutual_links_iff {c : Cluster} (hup : LinksUp c)
    (hmutual : ∀ v u stv stu, c.stateOf v = some stv → c.stateOf u = some stu → u ∈ stv.otherWorkers.keys →
      v ∈ stu.otherWorkers.keys) {e : WorkerId} (he : e ∈ c.workers.keys) {obs : List WorkerId}
    (hobs : ∀ w ∈ obs, w = e) :
    (∀ v ∈ c.workers.keys, ∃! l, Chain c e obs false l v) ↔
      Peerless c e ∧ (c.workers.keys = {e} ∨
        (∃ st lexec, c.stateOf e = some st ∧ st.leader = .connected lexec) ∧
          ∀ v ∈ c.workers.keys, v ≠ e → v ∈ c.leader.workers.keys ∧ Peerless c v) := by
  constructor
  · intro huniq
    have hpe : Peerless c e := peerless_of_unique hup hmutual he fun l hl => (huniq e he).unique hl (.here e obs false)
    have hothers : ∀ v ∈ c.workers.keys, v ≠ e →
        (∃ st lexec, c.stateOf e = some st ∧ st.leader = .connected lexec) ∧ v ∈ c.leader.workers.keys ∧
          Peerless c v := by
      intro v hv hve
      obtain ⟨l, hl, -⟩ := huniq v hv
      rcases chain_iff.1 hl with ⟨-, h⟩ | ⟨st, lexec, r, exec, l', hst, hn, -, hlead, hr, ho, rfl, hch⟩ |
        ⟨st, p, exec, l', hst, hp, -⟩
      · exact absurd h hve
      · -- the worker the leader asks has no peers, or it would be asked back
        have hrk := FnvHashMap.mem_keys hr
        have hpr : Peerless c r := peerless_of_unique hup hmutual (hup.registered r hrk)
          fun l'' (hl'' : Chain c r (hop exec r []) true l'' r) => by
          have h1 := (huniq r (hup.registered r hrk)).unique (.leader hst hn hlead hr ho hl'')
            (.leader hst hn hlead hr ho (.here r _ _))
          exact (List.cons.inj h1).2
        obtain ⟨-, rfl⟩ := hpr.chain hch
        exact ⟨⟨st, lexec, hst, hlead⟩, hrk, hpr⟩
      · obtain ⟨st', hst', hk⟩ := hpe
        obtain rfl := Option.some.inj (hst.symm.trans hst')
        have hmem : p ∈ st.otherWorkers.keys := FnvHashMap.mem_keys hp
        rw [hk] at hmem
        exact absurd hmem (Finset.notMem_empty p)
    refine ⟨hpe, ?_⟩
    by_cases hone : c.workers.keys = {e}
    · exact .inl hone
    · obtain ⟨v, hv, hve⟩ : ∃ v ∈ c.workers.keys, v ≠ e := by
        by_contra hno
        push Not at hno
        exact hone (Finset.eq_singleton_iff_unique_mem.mpr ⟨he, hno⟩)
      exact .inr ⟨(hothers v hv hve).1, fun u hu hue => (hothers u hu hue).2⟩
  · rintro ⟨⟨st, hst, hk⟩, hrest⟩ v hv
    have hpeer : ∀ l u, ¬ PeerChain c e obs false l u := by
      rintro l u ⟨st', p, exec, l', hst', hp, -⟩
      obtain rfl := Option.some.inj (hst.symm.trans hst')
      have hmem : p ∈ st.otherWorkers.keys := FnvHashMap.mem_keys hp
      rw [hk] at hmem
      exact absurd hmem (Finset.notMem_empty p)
    -- through the leader: to a registered worker that is not the entry worker, and no further
    have hleader : ∀ l u, LeaderChain c e obs false l u → l = [u] ∧ u ≠ e := by
      rintro l u ⟨st', lexec, r, exec, l', hst', -, -, -, hr, ho, rfl, hch⟩
      have hre : r ≠ e := fun h => ho (List.mem_append_right _ (List.mem_singleton.mpr h))
      have hrw := hup.registered r (FnvHashMap.mem_keys hr)
      rcases hrest with hone | ⟨-, hall⟩
      · rw [hone, Finset.mem_singleton] at hrw
        exact absurd hrw hre
      · obtain ⟨rfl, rfl⟩ := (hall r hrw hre).2.chain hch
        exact ⟨rfl, hre⟩
    by_cases hve : v = e
    · subst hve
      refine ⟨[], .here v obs false, fun l hl => ?_⟩
      rcases chain_iff.1 hl with ⟨h, -⟩ | h | h
      · exact h
      · exact absurd rfl (hleader l v h).2
      · exact absurd h (hpeer l v)
    · rcases hrest with hone | ⟨⟨st', lexec, hst', hlead⟩, hall⟩
      · rw [hone, Finset.mem_singleton] at hv
        exact absurd hv hve
      · obtain ⟨exec, hexec⟩ := Finmap.mem_iff.mp (Finmap.mem_keys.mp (hall v hv hve).1)
        obtain rfl := Option.some.inj (hst.symm.trans hst')
        have ho : v ∉ obs ++ [e] := by
          intro hmem
          rcases List.mem_append.mp hmem with h | h
          · exact hve (hobs v h)
          · exact hve (List.mem_singleton.mp h)
        refine ⟨[v], .leader hst hk hlead hexec ho (.here v _ _), fun l hl => ?_⟩
        rcases chain_iff.1 hl with ⟨-, h⟩ | h | h
        · exact absurd h hve
        · exact (hleader l v h).1
        · exact absurd h (hpeer l v)

/-! ## Two clusters -/

/-- links between workers and the leader, which is `none` -/
inductive Link (c : Cluster) : Option WorkerId → Option WorkerId → Prop
  | peer {v u : WorkerId} {st : WorkerState} {exec : Exec} (hst : c.stateOf v = some st)
    (h : st.otherWorkers.lookup u = some (.connected exec)) : Link c (some v) (some u)
  | toLeader {v : WorkerId} {st : WorkerState} {exec : Exec} (hst : c.stateOf v = some st)
    (h : st.leader = .connected exec) : Link c (some v) none
  | fromLeader {r : WorkerId} {exec : Exec} (h : c.leader.workers.lookup r = some exec) : Link c none (some r)

def Connected (c : Cluster) : Prop :=
  ∀ v ∈ c.workers.keys, ∀ u ∈ c.workers.keys, Relation.EqvGen (Link c) (some v) (some u)

def member (leader : LeaderSituation) (otherWorkers : FnvHashMap WorkerId WorkerSituation) : WorkerNode :=
  ⟨{ config := .default, model := none, part := none, disk := ∅, leader, otherWorkers }, ∅⟩

/-- two workers around the leader, without peers -/
def star : Cluster where
  leader := ⟨none, Finmap.insert 0 .local (Finmap.singleton 1 .local)⟩
  workers := Finmap.insert 0 (member (.connected .local) ∅) (Finmap.singleton 1 (member (.connected .local) ∅))

/-- two workers that are each other's peer -/
def mutual_ : Cluster where
  leader := ⟨none, ∅⟩
  workers :=
    Finmap.insert 0 (member .unaware (Finmap.singleton 1 (.connected .local)))
      (Finmap.singleton 1 (member .unaware (Finmap.singleton 0 (.connected .local))))

/-- answers arrive in the order of the workers, and no table has anything -/
def quiet : Oracle where
  order _ s := s.sort (· ≤ ·)
  order_val _ s := s.sort_eq (· ≤ ·)
  micros _ := 0
  uuid _ := 1
  seen _ := ∅

/-- each worker has one variable -/
def oneVar (v : WorkerId) : Except Error QueryProduct :=
  .ok (.addressedVar (Finmap.singleton ⟨if v = 0 then "ball" else "box", "position", .int, "x"⟩ (.int 3)))

def asked : Context := .new (.v4 0) 0 .unknown

theorem oneVar_addressed (v : WorkerId) : ∃ p, oneVar v = .ok p ∧ p.Addressed .var := ⟨_, rfl, _, rfl⟩

theorem quiet_fair (c : Cluster) (e : WorkerId) (ctx : Context) : quiet.Fair c e ctx :=
  fun _ _ _ _ => ⟨Finmap.notMem_empty, fun _ => Finmap.notMem_empty⟩

theorem star_peerless {v : WorkerId} (hv : v ∈ star.workers.keys) : Peerless star v := by
  have hk : v ∈ ({0, 1} : Finset WorkerId) := hv
  simp only [Finset.mem_insert, Finset.mem_singleton] at hk
  rcases hk with rfl | rfl
  · exact ⟨_, rfl, rfl⟩
  · exact ⟨_, rfl, rfl⟩

theorem star_linksUp : LinksUp star := by
  refine ⟨fun w st p situation hst hp => ?_, by decide⟩
  obtain ⟨st', hst', hk⟩ := star_peerless (mem_keys_of_stateOf hst)
  obtain rfl := Option.some.inj (hst.symm.trans hst')
  have hmem : p ∈ st.otherWorkers.keys := FnvHashMap.mem_keys hp
  rw [hk] at hmem
  exact absurd hmem (Finset.notMem_empty p)

/-- a query at one of two workers around the leader gets both products -/
theorem star_complete : Complete oneVar quiet star 0 asked := by
  refine (query_complete_iff oneVar quiet star 0 asked .var star_linksUp (by decide) (fun v _ => oneVar_addressed v)
    rfl (quiet_fair star 0 asked)).mpr ⟨.inl rfl, ?_⟩
  refine (mutual_links_iff star_linksUp (fun v u stv stu hv _ hmem => ?_) (by decide) (by simp [asked, Context.new,
    Context.workerObservers])).mpr ⟨star_peerless (by decide), .inr ⟨⟨_, .local, rfl, rfl⟩, fun v hv hne => ?_⟩⟩
  · obtain ⟨st, hst, hk⟩ := star_peerless (mem_keys_of_stateOf hv)
    obtain rfl := Option.some.inj (hv.symm.trans hst)
    rw [hk] at hmem
    exact absurd hmem (Finset.notMem_empty u)
  · exact ⟨hv, star_peerless hv⟩

theorem mutual_linksUp : LinksUp mutual_ := by
  refine ⟨fun w st p situation hst hp => ?_, by decide⟩
  have hk : w ∈ ({0, 1} : Finset WorkerId) := mem_keys_of_stateOf hst
  simp only [Finset.mem_insert, Finset.mem_singleton] at hk
  rcases hk with rfl | rfl
  · obtain rfl := Option.some.inj ((show mutual_.stateOf 0 =
      some (member .unaware (Finmap.singleton 1 (.connected .local))).state from rfl).symm.trans hst)
    obtain rfl : p = 1 := by simpa [member] using FnvHashMap.mem_keys hp
    exact ⟨⟨.local, by simpa [member] using hp.symm⟩, by decide⟩
  · obtain rfl := Option.some.inj ((show mutual_.stateOf 1 =
      some (member .unaware (Finmap.singleton 0 (.connected .local))).state from rfl).symm.trans hst)
    obtain rfl : p = 0 := by simpa [member] using FnvHashMap.mem_keys hp
    exact ⟨⟨.local, by simpa [member] using hp.symm⟩, by decide⟩

theorem mutual_connected : Connected mutual_ := by
  have h01 : Link mutual_ (some 0) (some 1) := .peer rfl (rfl : _ = some (WorkerSituation.connected Exec.local))
  intro v hv u hu
  have hv' : v ∈ ({0, 1} : Finset WorkerId) := hv
  have hu' : u ∈ ({0, 1} : Finset WorkerId) := hu
  simp only [Finset.mem_insert, Finset.mem_singleton] at hv' hu'
  rcases hv' with rfl | rfl <;> rcases hu' with rfl | rfl
  · exact .refl _
  · exact .rel _ _ h01
  · exact .symm _ _ (.rel _ _ h01)
  · exact .refl _

/-- **A query that is never answered.** Each of two peers sends the query on to the other, which sends it back. -/
theorem peers_never_answer :
    ¬ ∀ (answer : WorkerId → Except Error QueryProduct) (o : Oracle) (c : Cluster) (e : WorkerId) (ctx : Context),
      Connected c → LinksUp c → e ∈ c.workers.keys →
      (∀ v ∈ c.workers.keys, ∃ p, answer v = .ok p ∧ p.Addressed .var) → ctx.wentThroughLeader = false →
      o.Fair c e ctx → Complete answer o c e ctx := by
  intro h
  obtain ⟨n, r, hr, honce, -⟩ := h oneVar quiet mutual_ 0 asked mutual_connected mutual_linksUp (by decide)
    (fun v _ => oneVar_addressed v) rfl (quiet_fair mutual_ 0 asked)
  obtain ⟨-, hnodup, hchains⟩ := processQuery_ok (fun v _ => ⟨_, .var, (oneVar_addressed v).choose_spec⟩) n hr
  obtain ⟨l, -, huniq⟩ := (once_iff hnodup 0).mp (honce 0 (by decide))
  have hback := huniq [1, 0] ((hchains [1, 0] 0).mpr
    (.peer rfl (rfl : _ = some (WorkerSituation.connected Exec.local))
      (.peer rfl (rfl : _ = some (WorkerSituation.connected Exec.local)) (.here 0 _ _))))
  have hhere := huniq [] ((hchains [] 0).mpr (.here 0 _ _))
  rw [← hhere] at hback
  cases hback

end BigWorlds.GlobalQuery
