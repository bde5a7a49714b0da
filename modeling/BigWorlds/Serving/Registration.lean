/-
Clients of a server and the addresses they call from (`server/mod.rs`: `handle_client_message_bytes`,
`handle_client_message`, `handle_message`, `find_client_id`).

Every message is handled by a task of its own. The task looks its caller up under the server's lock, and registers the
caller, if it was not found, under later ones: the lock is let go in between. Each step of a task is what it does under
one lock, so that steps of different tasks interleave; while a registration is authorized by the worker its task keeps
the lock.

- `oneEach_iff`: in every state of a run at most one client has an address, a lookup gives the same client whichever
  order the table is gone through in, and a registration whose caller is registered when it is looked up is turned away,
  exactly if every client is inserted at a time when its address is not registered.
- `guarded_of_serial`: this is so where a registration is looked up only when none from the same address is on its way.

Witness: `registered_twice`: two registrations from one address, both looked up before either is inserted.

Left out: the lookup that a listener makes before, for the encoding of its answer, and what requests of other kinds do,
which leaves the table alone.
-/
import BigWorlds.Core.Run
import BigWorlds.Net.Address
import BigWorlds.Rpc.Context
import Mathlib.Data.List.Nodup
import Mathlib.Data.List.Pairwise

namespace BigWorlds.Serving

open BigWorlds.Core (run Along)
open Net (Encoding)

/-! ## Messages and clients -/

structure RegisterClientRequest where
  name : String
  isBlocking : Bool
  authToken : Option String
deriving DecidableEq, Repr

inductive Message where
  | registerClientRequest (req : RegisterClientRequest)
  | disconnect
  /-- a request of another kind -/
  | request
deriving DecidableEq, Repr

/-- `ConnectionOrAddress`, with the remote address of the connection -/
inductive Caller (α : Type) where
  | connection (remote : α)
  | address (addr : α)
deriving DecidableEq, Repr

variable {α : Type}

def Caller.addr : Caller α → α
  | .connection remote => remote
  | .address addr => addr

/-- how a message comes in: encoded over a network, decoded by another listener, or from a handle with its client -/
inductive Entry (α : Type) where
  | bytes (caller : Caller α) (decode : Encoding → Except String Message)
  | message (caller : Caller α) (msg : Message)
  | handle (client : Option ClientId) (msg : Message)

/-- the address that the task looks up -/
def Entry.caller : Entry α → Option α
  | .bytes caller _ | .message caller _ => some caller.addr
  | .handle _ _ => none

/-- `peer_addr`: a message that is decoded already has none if it comes over a connection -/
def Entry.peerAddr : Entry α → Option α
  | .bytes caller _ => some caller.addr
  | .message (.address addr) _ => some addr
  | .message (.connection _) _ | .handle _ _ => none

structure Client (α : Type) where
  id : ClientId
  name : String
  addr : Option α
  encoding : Encoding
  isBlocking : Bool
deriving DecidableEq, Repr

/-! ## Tasks -/

inductive Refusal where
  | other (text : String)
  | forbidden (text : String)
  | workerNotConnected (text : String)
  /-- an error of the decoder or of the worker -/
  | failed (text : String)
deriving DecidableEq, Repr

inductive Answer where
  | registerClientResponse (id : ClientId)
  | disconnect
  | response
  | refused (why : Refusal)
deriving DecidableEq, Repr

inductive Pc where
  | arrived
  /-- looked up; the message is not decoded yet -/
  | found (encoding : Encoding) (client : Option ClientId)
  | handling (client : Option ClientId) (msg : Message)
  /-- waiting for the worker, with the lock -/
  | authorizing (req : RegisterClientRequest)
  | passed (req : RegisterClientRequest)
  /-- counted as blocking -/
  | counted (req : RegisterClientRequest)
  | answered (answer : Answer)
deriving DecidableEq, Repr

/-- the next step of the task waits for the lock -/
def Pc.needsLock : Pc → Bool
  | .arrived | .authorizing _ | .answered _ => false
  | .handling none (.registerClientRequest _) | .handling (some _) .disconnect => true
  | .handling _ _ => false
  | .found _ _ | .passed _ | .counted _ => true

structure Task (α : Type) where
  entry : Entry α
  pc : Pc

structure Server (α : Type) where
  clients : List (Client α)
  /-- `Uuid::new_v4` -/
  nextClient : ClientId
  requireAuth : Bool
  /-- a worker is connected -/
  worker : Bool
  blocked : UInt8
  /-- the task that keeps the lock while it waits -/
  lock : Option ℕ
  tasks : List (Task α)

inductive Op (α : Type) where
  | arrive (entry : Entry α)
  /-- `find_client_id`, with the order in which the table is gone through -/
  | find (i : ℕ) (order : List (Client α))
  | next (i : ℕ)
  /-- the worker answers `Authorize`: whether its answer is empty, or an error -/
  | authorized (i : ℕ) (reply : Except String Bool)
  | connectWorker

section
variable [DecidableEq α]

/-- `find_client_id` in a table that is gone through in the order given -/
def findClientId (addr : α) (order : List (Client α)) : Encoding × Option ClientId :=
  match order.find? (·.addr = some addr) with
  | some client => (client.encoding, some client.id)
  | none => (.bincode, none)

namespace Server

def setTask (s : Server α) (i : ℕ) (entry : Entry α) (pc : Pc) : Server α :=
  { s with tasks := s.tasks.set i ⟨entry, pc⟩ }

/-- the client that a registration makes -/
def newClient (s : Server α) (entry : Entry α) (req : RegisterClientRequest) : Client α :=
  ⟨s.nextClient, req.name, entry.peerAddr, .bincode, req.isBlocking⟩

def insertClient (s : Server α) (i : ℕ) (entry : Entry α) (req : RegisterClientRequest) : Server α :=
  { s with clients := s.clients ++ [s.newClient entry req], nextClient := s.nextClient + 1 }.setTask i entry
    (.answered (.registerClientResponse s.nextClient))

def disconnect (s : Server α) (id : ClientId) : Server α :=
  let lower := s.clients.any (fun c => c.id = id && c.isBlocking) && s.blocked != 0
  { s with
    clients := s.clients.filter (·.id ≠ id)
    blocked := if lower then s.blocked - 1 else s.blocked }

/-- the lookup of the caller -/
def find (s : Server α) (i : ℕ) (entry : Entry α) (order : List (Client α)) : Server α :=
  match entry with
  | .bytes caller _ =>
    let (encoding, client) := findClientId caller.addr order
    s.setTask i entry (.found encoding client)
  | .message caller msg => s.setTask i entry (.handling (findClientId caller.addr order).2 msg)
  | .handle _ _ => s

/-- the authorization of a registration, up to the request to the worker -/
def authorize (s : Server α) (i : ℕ) (entry : Entry α) (req : RegisterClientRequest) : Server α :=
  if s.requireAuth then
    if req.authToken.isSome then
      if s.worker then { s with lock := some i }.setTask i entry (.authorizing req)
      else s.setTask i entry (.answered (.refused (.workerNotConnected "")))
    else s.setTask i entry (.answered (.refused (.forbidden "failed to provide valid auth")))
  else s.setTask i entry (.passed req)

/-- the next step of a task that can go on -/
def handle (s : Server α) (i : ℕ) (entry : Entry α) (pc : Pc) : Server α :=
  match pc with
  | .arrived =>
    match entry with
    | .handle client msg => s.setTask i entry (.handling client msg)
    | _ => s
  | .found encoding client =>
    match entry with
    | .bytes _ decode =>
      match decode encoding with
      | .ok msg => s.setTask i entry (.handling client msg)
      | .error text => s.setTask i entry (.answered (.refused (.failed text)))
    | _ => s
  | .handling (some _) (.registerClientRequest _) =>
    s.setTask i entry (.answered (.refused (.other "existing client attempted registration again")))
  | .handling none (.registerClientRequest req) => s.authorize i entry req
  | .handling none _ => s.setTask i entry (.answered (.refused (.forbidden "client not recognized")))
  | .handling (some id) .disconnect => (s.disconnect id).setTask i entry (.answered .disconnect)
  | .handling (some _) .request => s.setTask i entry (.answered .response)
  | .passed req =>
    if req.isBlocking then { s with blocked := s.blocked + 1 }.setTask i entry (.counted req)
    else s.insertClient i entry req
  | .counted req => s.insertClient i entry req
  | .authorizing _ | .answered _ => s

/-- the answer of the worker; the lock is let go -/
def authorized (s : Server α) (i : ℕ) (entry : Entry α) (req : RegisterClientRequest) (reply : Except String Bool) :
    Server α :=
  let pc := match reply with
    | .ok true => .passed req
    | .ok false => .answered (.refused (.forbidden "provided invalid auth"))
    | .error text => .answered (.refused (.failed text))
  { s with lock := none }.setTask i entry pc

def step (s : Server α) : Op α → Server α
  | .arrive entry => { s with tasks := s.tasks ++ [⟨entry, .arrived⟩] }
  | .find i order =>
    match s.tasks[i]? with
    -- `order` is one of those that the table may have
    | some ⟨entry, .arrived⟩ => if s.lock = none ∧ order.Perm s.clients then s.find i entry order else s
    | _ => s
  | .next i =>
    match s.tasks[i]? with
    | some ⟨entry, pc⟩ => if s.lock = none ∨ pc.needsLock = false then s.handle i entry pc else s
    | none => s
  | .authorized i reply =>
    match s.tasks[i]? with
    | some ⟨entry, .authorizing req⟩ => s.authorized i entry req reply
    | _ => s
  | .connectWorker => { s with worker := true }

/-- a server as it is spawned -/
def spawn (requireAuth : Bool) : Server α := ⟨[], 0, requireAuth, false, 0, none, []⟩

/-! ## What is to hold -/

/-- the addresses that clients are registered with -/
def addrs (s : Server α) : List α := s.clients.filterMap Client.addr

/-- the client that the next step of a task inserts -/
def entering (s : Server α) (entry : Entry α) : Pc → Option (Client α)
  | .passed req => if req.isBlocking then none else some (s.newClient entry req)
  | .counted req => some (s.newClient entry req)
  | _ => none

def inserted (s : Server α) : Op α → Option (Client α)
  | .next i =>
    match s.tasks[i]? with
    | some ⟨entry, pc⟩ => if s.lock = none ∨ pc.needsLock = false then s.entering entry pc else none
    | none => none
  | _ => none

/-- **The condition on a step.** Where a client is inserted, a lookup of its address still finds none. -/
def Guarded (s : Server α) (o : Op α) : Prop :=
  ∀ client ∈ s.inserted o, ∀ addr ∈ client.addr, (findClientId addr s.clients).2 = none

end Server

/-- the task has found a client, or has ended without registering one -/
def Task.TurnedAway (t : Task α) : Prop :=
  match t.pc with
  | .found _ client | .handling client _ => client ≠ none
  | .answered answer => ∀ id, answer ≠ .registerClientResponse id
  | _ => False

/-- at most one client has an address, so that a lookup gives one client, and a registration from an address that has a
client does not come through -/
structure OneEach (s : Server α) : Prop where
  one : s.addrs.Nodup
  unambiguous : ∀ addr order order', order.Perm s.clients → order'.Perm s.clients →
    findClientId addr order = findClientId addr order'
  rejected : ∀ i entry addr order ops, s.tasks[i]? = some ⟨entry, .arrived⟩ → entry.caller = some addr →
    addr ∈ s.addrs → s.lock = none → order.Perm s.clients →
    ∃ t, (run Server.step (s.step (.find i order)) ops).tasks[i]? = some t ∧ t.TurnedAway

/-! ## Lookups -/

theorem findClientId_eq_none_iff {addr : α} {order : List (Client α)} :
    (findClientId addr order).2 = none ↔ addr ∉ order.filterMap Client.addr := by
  unfold findClientId
  rw [List.mem_filterMap]
  cases hfind : order.find? (·.addr = some addr) with
  | none =>
    refine iff_of_true rfl ?_
    rintro ⟨client, hmem, haddr⟩
    exact absurd (List.find?_eq_none.mp hfind client hmem) (by simp [haddr])
  | some client =>
    refine iff_of_false (Option.some_ne_none client.id) (not_not_intro ⟨client, List.mem_of_find?_eq_some hfind, ?_⟩)
    simpa using List.find?_some hfind

theorem encoding_of_none {addr : α} {order : List (Client α)} (h : (findClientId addr order).2 = none) :
    (findClientId addr order).1 = .bincode := by
  unfold findClientId at h ⊢
  split at h
  · exact absurd h (Option.some_ne_none _)
  · rfl

theorem eq_of_addr {clients : List (Client α)} (h : (clients.filterMap Client.addr).Nodup) {c c' : Client α}
    (hc : c ∈ clients) (hc' : c' ∈ clients) {addr : α} (haddr : c.addr = some addr) (haddr' : c'.addr = some addr) :
    c = c' := by
  by_contra hne
  have hpairs := List.pairwise_filterMap.mp h
  have : Std.Symm fun c c' : Client α => ∀ b, c.addr = some b → ∀ b', c'.addr = some b' → b ≠ b' :=
    ⟨fun _ _ h b hb b' hb' heq => h b' hb' b hb heq.symm⟩
  exact hpairs.forall hc hc' hne addr haddr addr haddr' rfl

/-- where no two clients have an address in common, the order of the table makes no difference to a lookup -/
theorem findClientId_perm {clients order order' : List (Client α)} (h : (clients.filterMap Client.addr).Nodup)
    (horder : order.Perm clients) (horder' : order'.Perm clients) (addr : α) :
    findClientId addr order = findClientId addr order' := by
  unfold findClientId
  cases hfind : order.find? (·.addr = some addr) with
  | none =>
    have hnone : order'.find? (·.addr = some addr) = none := by
      rw [List.find?_eq_none] at hfind ⊢
      exact fun c hc => hfind c ((horder.trans horder'.symm).mem_iff.mpr hc)
    rw [hnone]
  | some c =>
    cases hfind' : order'.find? (·.addr = some addr) with
    | none =>
      have hc := (horder.trans horder'.symm).mem_iff.mp (List.mem_of_find?_eq_some hfind)
      exact absurd (List.find?_some hfind) (List.find?_eq_none.mp hfind' c hc)
    | some c' =>
      have hc := horder.mem_iff.mp (List.mem_of_find?_eq_some hfind)
      have hc' := horder'.mem_iff.mp (List.mem_of_find?_eq_some hfind')
      rw [eq_of_addr h hc hc' (by simpa using List.find?_some hfind) (by simpa using List.find?_some hfind')]

/-! ## One step -/

omit [DecidableEq α] in
/-- what a task that goes on does with the table of clients -/
theorem clients_handle (s : Server α) (i : ℕ) (entry : Entry α) (pc : Pc) :
    (∃ client, s.entering entry pc = some client ∧ (s.handle i entry pc).clients = s.clients ++ [client]) ∨
      (s.entering entry pc = none ∧ (s.handle i entry pc).clients.Sublist s.clients) := by
  have hsame : s.clients.Sublist s.clients := List.Sublist.refl _
  cases pc with
  | arrived =>
    refine .inr ⟨rfl, ?_⟩
    cases entry <;> exact hsame
  | found encoding client =>
    refine .inr ⟨rfl, ?_⟩
    simp only [Server.handle]
    split
    · split <;> exact hsame
    · exact hsame
  | handling client msg =>
    refine .inr ⟨rfl, ?_⟩
    cases client with
    | none =>
      cases msg with
      | registerClientRequest req =>
        simp only [Server.handle, Server.authorize]
        split_ifs <;> exact hsame
      | disconnect => exact hsame
      | request => exact hsame
    | some id =>
      cases msg with
      | registerClientRequest req => exact hsame
      | disconnect => exact List.filter_sublist
      | request => exact hsame
  | authorizing req => exact .inr ⟨rfl, hsame⟩
  | passed req =>
    cases hblocking : req.isBlocking with
    | true => exact .inr ⟨by simp [Server.entering, hblocking], by simp [Server.handle, hblocking, Server.setTask]⟩
    | false =>
      exact .inl ⟨s.newClient entry req, by simp [Server.entering, hblocking],
        by simp [Server.handle, hblocking, Server.insertClient, Server.setTask]⟩
  | counted req => exact .inl ⟨s.newClient entry req, rfl, rfl⟩
  | answered answer => exact .inr ⟨rfl, hsame⟩

/-- what a step does with the table of clients: the client that it inserts is added, or some are taken out -/
theorem clients_step (s : Server α) (o : Op α) :
    (∃ client, s.inserted o = some client ∧ (s.step o).clients = s.clients ++ [client]) ∨
      (s.inserted o = none ∧ (s.step o).clients.Sublist s.clients) := by
  have hsame : s.clients.Sublist s.clients := List.Sublist.refl _
  cases o with
  | arrive entry => exact .inr ⟨rfl, hsame⟩
  | connectWorker => exact .inr ⟨rfl, hsame⟩
  | find i order =>
    refine .inr ⟨rfl, ?_⟩
    simp only [Server.step]
    split
    · split_ifs
      · unfold Server.find
        split <;> exact hsame
      · exact hsame
    · exact hsame
  | authorized i reply =>
    refine .inr ⟨rfl, ?_⟩
    simp only [Server.step]
    split <;> exact hsame
  | next i =>
    simp only [Server.step, Server.inserted]
    split
    · split_ifs
      · exact clients_handle s i _ _
      · exact .inr ⟨rfl, hsame⟩
    · exact .inr ⟨rfl, hsame⟩

/-- **Insertion.** A step keeps the addresses of clients apart exactly where the client that it inserts has one that no
other has. -/
theorem step_nodup_iff {s : Server α} (h : s.addrs.Nodup) (o : Op α) : (s.step o).addrs.Nodup ↔ s.Guarded o := by
  unfold Server.Guarded
  rcases clients_step s o with ⟨client, hinserted, hclients⟩ | ⟨hinserted, hclients⟩
  · rw [hinserted, Server.addrs, hclients, List.filterMap_append, List.filterMap_cons, List.filterMap_nil]
    simp only [Option.mem_def, Option.some.injEq, forall_eq', findClientId_eq_none_iff]
    cases haddr : client.addr with
    | none => simpa [Server.addrs] using h
    | some addr =>
      simp only [Option.some.injEq, forall_eq']
      rw [List.nodup_append]
      constructor
      · intro hnodup hmem
        exact hnodup.2.2 addr hmem addr List.mem_cons_self rfl
      · intro hfree
        refine ⟨h, List.nodup_singleton addr, ?_⟩
        intro addr' hmem addr'' hmem' heq
        rw [List.mem_singleton] at hmem'
        exact hfree (hmem' ▸ heq ▸ hmem)
  · rw [hinserted]
    refine iff_of_true (h.sublist (hclients.filterMap _)) ?_
    intro client hclient
    exact absurd hclient (by simp)

/-! ## Tasks on their way -/

/-- a registration that may still come through -/
def Task.Registers (t : Task α) : Prop :=
  match t.pc with
  | .found encoding none =>
    match t.entry with
    | .bytes _ decode => ∃ req, decode encoding = .ok (.registerClientRequest req)
    | _ => False
  | .handling none (.registerClientRequest _) | .authorizing _ | .passed _ | .counted _ => True
  | _ => False

/-- the message asks for a registration; it is decoded as from a client that is not known -/
def Entry.Asks : Entry α → Prop
  | .bytes _ decode => ∃ req, decode .bincode = .ok (.registerClientRequest req)
  | .message _ (.registerClientRequest _) | .handle _ (.registerClientRequest _) => True
  | _ => False

/-- a registration from the address is on its way -/
def Task.OnItsWay (t : Task α) (addr : α) : Prop := t.entry.peerAddr = some addr ∧ t.Registers

/-- what a task keeps as it goes on -/
structure Onward (s : Server α) (entry : Entry α) (pc pc' : Pc) : Prop where
  turned : Task.TurnedAway ⟨entry, pc⟩ → Task.TurnedAway ⟨entry, pc'⟩
  onItsWay : ∀ addr, Task.OnItsWay ⟨entry, pc'⟩ addr → Task.OnItsWay ⟨entry, pc⟩ addr
  entered : s.entering entry pc ≠ none → ¬ Task.Registers ⟨entry, pc'⟩

variable {s : Server α} {i : ℕ} {entry : Entry α} {pc : Pc}

omit [DecidableEq α] in
theorem Onward.refl (h : s.entering entry pc = none) : Onward s entry pc pc :=
  ⟨id, fun _ => id, fun hne => absurd h hne⟩

omit [DecidableEq α] in
/-- a task that is answered without a client is turned away -/
theorem Onward.refused (why : Refusal) (h : s.entering entry pc = none) :
    Onward s entry pc (.answered (.refused why)) :=
  ⟨fun _ id => by simp, fun _ h => absurd h.2 id, fun hne => absurd h hne⟩

omit [DecidableEq α] in
theorem set_same {l : List (Task α)} {t : Task α} (h : l[i]? = some t) : l = l.set i t := by
  obtain ⟨hi, rfl⟩ := List.getElem?_eq_some_iff.mp h
  exact (List.set_getElem_self hi).symm

omit [DecidableEq α] in
theorem authorize_onward (req : RegisterClientRequest) :
    ∃ pc', (s.authorize i entry req).tasks = s.tasks.set i ⟨entry, pc'⟩ ∧
      Onward s entry (.handling none (.registerClientRequest req)) pc' := by
  have hgoes : ∀ pc', Onward s entry (.handling none (.registerClientRequest req)) pc' := fun pc' =>
    ⟨fun h => absurd rfl h, fun _ h => ⟨h.1, trivial⟩, fun hne => absurd rfl hne⟩
  unfold Server.authorize
  split_ifs <;> exact ⟨_, rfl, hgoes _⟩

theorem handle_onward (h : s.tasks[i]? = some ⟨entry, pc⟩) :
    ∃ pc', (s.handle i entry pc).tasks = s.tasks.set i ⟨entry, pc'⟩ ∧ Onward s entry pc pc' := by
  cases pc with
  | arrived =>
    cases entry with
    | handle client msg =>
      refine ⟨_, rfl, fun h => absurd h id, ?_, fun hne => absurd rfl hne⟩
      rintro addr ⟨⟨⟩, _⟩
    | bytes caller decode => exact ⟨_, set_same h, .refl rfl⟩
    | message caller msg => exact ⟨_, set_same h, .refl rfl⟩
  | found encoding client =>
    cases entry with
    | bytes caller decode =>
      cases hdecode : decode encoding with
      | ok msg =>
        refine ⟨.handling client msg, by simp only [Server.handle, hdecode]; rfl, id, ?_, fun hne => absurd rfl hne⟩
        intro addr hway
        refine ⟨hway.1, ?_⟩
        cases client with
        | none =>
          cases msg with
          | registerClientRequest req => exact ⟨req, hdecode⟩
          | disconnect => exact absurd hway.2 id
          | request => exact absurd hway.2 id
        | some found => exact absurd hway.2 (by cases msg <;> exact id)
      | error text => exact ⟨_, by simp only [Server.handle, hdecode]; rfl, .refused (.failed text) rfl⟩
    | message caller msg => exact ⟨_, set_same h, .refl rfl⟩
    | handle client msg => exact ⟨_, set_same h, .refl rfl⟩
  | handling client msg =>
    cases client with
    | none =>
      cases msg with
      | registerClientRequest req => exact authorize_onward req
      | disconnect => exact ⟨_, rfl, .refused _ rfl⟩
      | request => exact ⟨_, rfl, .refused _ rfl⟩
    | some id =>
      cases msg with
      | registerClientRequest req => exact ⟨_, rfl, .refused _ rfl⟩
      | disconnect => exact ⟨_, rfl, fun _ id => by simp, fun _ h => absurd h.2 (fun h => h), fun hne => absurd rfl hne⟩
      | request => exact ⟨_, rfl, fun _ id => by simp, fun _ h => absurd h.2 (fun h => h), fun hne => absurd rfl hne⟩
  | authorizing req => exact ⟨_, set_same h, .refl rfl⟩
  | passed req =>
    cases hblocking : req.isBlocking with
    | true =>
      refine ⟨.counted req, by simp [Server.handle, hblocking, Server.setTask], fun h => absurd h id, ?_, ?_⟩
      · exact fun _ h => ⟨h.1, trivial⟩
      · exact fun hne => absurd (by simp [Server.entering, hblocking]) hne
    | false =>
      refine ⟨_, by simp only [Server.handle, hblocking]; rfl, fun h => absurd h id, ?_, fun _ => id⟩
      exact fun _ h => absurd h.2 id
  | counted req => exact ⟨_, rfl, fun h => absurd h id, fun _ h => absurd h.2 id, fun _ => id⟩
  | answered answer => exact ⟨_, set_same h, .refl rfl⟩

omit [DecidableEq α] in
theorem authorized_onward (req : RegisterClientRequest) (reply : Except String Bool) :
    ∃ pc', (s.authorized i entry req reply).tasks = s.tasks.set i ⟨entry, pc'⟩ ∧
      Onward s entry (.authorizing req) pc' :=
  ⟨_, rfl, fun h => absurd h id, fun _ h => ⟨h.1, trivial⟩, fun hne => absurd rfl hne⟩

/-- what `find_client_id` does to the task that calls it -/
theorem find_tasks (h : s.tasks[i]? = some ⟨entry, .arrived⟩) (order : List (Client α)) :
    ∃ pc, (s.find i entry order).tasks = s.tasks.set i ⟨entry, pc⟩ ∧
      (∀ addr, entry.caller = some addr → addr ∈ order.filterMap Client.addr → Task.TurnedAway ⟨entry, pc⟩) ∧
      ∀ addr, Task.OnItsWay ⟨entry, pc⟩ addr → addr ∉ order.filterMap Client.addr ∧ entry.Asks := by
  cases entry with
  | bytes caller decode =>
    refine ⟨.found (findClientId caller.addr order).1 (findClientId caller.addr order).2, rfl, ?_, ?_⟩
    · rintro addr ⟨⟩ hmem
      exact fun hnone => findClientId_eq_none_iff.1 hnone hmem
    · rintro addr ⟨⟨⟩, hregisters⟩
      cases hclient : (findClientId caller.addr order).2 with
      | none =>
        rw [hclient, encoding_of_none hclient] at hregisters
        exact ⟨findClientId_eq_none_iff.1 hclient, hregisters⟩
      | some client =>
        rw [hclient] at hregisters
        exact absurd hregisters id
  | message caller msg =>
    refine ⟨.handling (findClientId caller.addr order).2 msg, rfl, ?_, ?_⟩
    · rintro addr ⟨⟩ hmem
      exact fun hnone => findClientId_eq_none_iff.1 hnone hmem
    · rintro addr ⟨hpeer, hregisters⟩
      have hcaller : caller.addr = addr := by
        cases caller with
        | connection remote => exact absurd hpeer (by rintro ⟨⟩)
        | address addr' => exact Option.some.inj hpeer
      subst hcaller
      cases hclient : (findClientId caller.addr order).2 with
      | none =>
        rw [hclient] at hregisters
        refine ⟨findClientId_eq_none_iff.1 hclient, ?_⟩
        cases msg <;> exact hregisters
      | some client =>
        rw [hclient] at hregisters
        cases msg <;> exact absurd hregisters id
  | handle client msg =>
    refine ⟨.arrived, set_same h, ?_, fun _ h => absurd h.2 id⟩
    rintro addr ⟨⟩

/-- **What a step does with the tasks.** Nothing, or a task arrives, looks its caller up, or goes on. -/
inductive Steps (s : Server α) (o : Op α) : List (Task α) → Prop
  | same (h : s.inserted o = none) : Steps s o s.tasks
  | arrive (entry : Entry α) (h : s.inserted o = none) : Steps s o (s.tasks ++ [⟨entry, .arrived⟩])
  | find (i : ℕ) (entry : Entry α) (order : List (Client α)) (ho : o = .find i order)
      (h : s.tasks[i]? = some ⟨entry, .arrived⟩) (horder : order.Perm s.clients) :
      Steps s o (s.find i entry order).tasks
  | onward (i : ℕ) (entry : Entry α) (pc pc' : Pc) (h : s.tasks[i]? = some ⟨entry, pc⟩) (hon : Onward s entry pc pc')
      (hinserted : ∀ client, s.inserted o = some client → s.entering entry pc = some client) :
      Steps s o (s.tasks.set i ⟨entry, pc'⟩)

theorem steps (s : Server α) (o : Op α) : Steps s o (s.step o).tasks := by
  cases o with
  | arrive entry => exact .arrive entry rfl
  | connectWorker => exact .same rfl
  | find i order =>
    simp only [Server.step]
    split
    · rename_i entry htask
      split_ifs with hcan
      · exact .find i entry order rfl htask hcan.2
      · exact .same rfl
    · exact .same rfl
  | authorized i reply =>
    simp only [Server.step]
    split
    · rename_i entry req htask
      obtain ⟨pc', htasks, hon⟩ := @authorized_onward α s i entry req reply
      rw [htasks]
      exact .onward i entry _ pc' htask hon fun client h => absurd h (by rintro ⟨⟩)
    · exact .same rfl
  | next i =>
    cases htask : s.tasks[i]? with
    | none =>
      simp only [Server.step, htask]
      exact .same (by simp only [Server.inserted, htask])
    | some t =>
      obtain ⟨entry, pc⟩ := t
      simp only [Server.step, htask]
      split_ifs with hcan
      · obtain ⟨pc', htasks, hon⟩ := handle_onward htask
        rw [htasks]
        exact .onward i entry pc pc' htask hon fun client h => by
          simpa only [Server.inserted, htask, if_pos hcan] using h
      · exact .same (by simp only [Server.inserted, htask, if_neg hcan])

/-! ## Registrations that are turned away -/

/-- the task has been turned away -/
def Away (i : ℕ) (s : Server α) : Prop := ∃ t, s.tasks[i]? = some t ∧ t.TurnedAway

theorem step_away (s : Server α) (o : Op α) (h : Away i s) : Away i (s.step o) := by
  obtain ⟨t, htask, haway⟩ := h
  have hi : i < s.tasks.length := (List.getElem?_eq_some_iff.mp htask).1
  unfold Away
  generalize htasks : (s.step o).tasks = tasks
  have hsteps := steps s o
  rw [htasks] at hsteps
  cases hsteps with
  | same => exact ⟨t, htask, haway⟩
  | arrive entry => exact ⟨t, by rw [List.getElem?_append_left hi, htask], haway⟩
  | find j entry order _ hj =>
    obtain ⟨pc, hset, _⟩ := find_tasks hj order
    have hne : j ≠ i := by
      rintro rfl
      obtain rfl := Option.some.inj (hj.symm.trans htask)
      exact haway
    exact ⟨t, by rw [hset, List.getElem?_set_ne hne, htask], haway⟩
  | onward j entry pc pc' hj hon =>
    by_cases hne : j = i
    · subst hne
      obtain rfl := Option.some.inj (hj.symm.trans htask)
      exact ⟨_, List.getElem?_set_self hi, hon.turned haway⟩
    · exact ⟨t, by rw [List.getElem?_set_ne hne, htask], haway⟩

theorem find_away {order : List (Client α)} {addr : α} (h : s.tasks[i]? = some ⟨entry, .arrived⟩)
    (hcaller : entry.caller = some addr) (haddr : addr ∈ s.addrs) (hlock : s.lock = none)
    (horder : order.Perm s.clients) : Away i (s.step (.find i order)) := by
  have hi : i < s.tasks.length := (List.getElem?_eq_some_iff.mp h).1
  obtain ⟨pc, hset, haway, _⟩ := find_tasks h order
  have hmem : addr ∈ order.filterMap Client.addr := (horder.filterMap Client.addr).mem_iff.mpr haddr
  refine ⟨⟨entry, pc⟩, ?_, haway addr hcaller hmem⟩
  simp only [Server.step, h, if_pos (And.intro hlock horder), hset]
  exact List.getElem?_set_self hi

theorem oneEach_iff_nodup (s : Server α) : OneEach s ↔ s.addrs.Nodup := by
  constructor
  · exact fun h => h.one
  · intro h
    refine ⟨h, fun addr order order' horder horder' => findClientId_perm h horder horder' addr, ?_⟩
    intro i entry addr order ops htask hcaller haddr hlock horder
    exact Core.run_keeps step_away (find_away htask hcaller haddr hlock horder) ops

/-! ## Registrations one at a time -/

/-- **A condition on lookups.** A registration is looked up only when none from its address is on its way. -/
def Serial (s : Server α) : Op α → Prop
  | .find i _ => ∀ t ∈ s.tasks[i]?, t.pc = .arrived → t.entry.Asks → ∀ addr ∈ t.entry.peerAddr, ∀ t' ∈ s.tasks,
      ¬ t'.OnItsWay addr
  | _ => True

/-- a registration on its way is the only one from its address, and the address is free -/
structure Clear (s : Server α) : Prop where
  free : ∀ (i : ℕ) (t : Task α) addr, s.tasks[i]? = some t → t.OnItsWay addr → addr ∉ s.addrs
  alone : ∀ (i j : ℕ) (t t' : Task α) addr, s.tasks[i]? = some t → s.tasks[j]? = some t' →
    t.OnItsWay addr → t'.OnItsWay addr → i = j

omit [DecidableEq α] in
/-- the client that a task inserts has the address of the registration, which is on its way until then -/
theorem entering_onItsWay {client : Client α} (h : s.entering entry pc = some client) {addr : α}
    (haddr : client.addr = some addr) : Task.OnItsWay ⟨entry, pc⟩ addr := by
  cases pc with
  | passed req =>
    simp only [Server.entering] at h
    split_ifs at h
    obtain rfl := Option.some.inj h
    exact ⟨haddr, trivial⟩
  | counted req =>
    obtain rfl := Option.some.inj h
    exact ⟨haddr, trivial⟩
  | _ => exact absurd h (by rintro ⟨⟩)

theorem guarded_of_clear (h : Clear s) (o : Op α) : s.Guarded o := by
  intro client hclient addr haddr
  have hsteps := steps s o
  have hnone : ∀ {P : Prop}, s.inserted o = none → P := fun hnone => absurd (hnone.symm.trans hclient) (by rintro ⟨⟩)
  generalize (s.step o).tasks = tasks at hsteps
  cases hsteps with
  | same hinserted => exact hnone hinserted
  | arrive _ hinserted => exact hnone hinserted
  | find i _ order ho =>
    subst ho
    exact hnone rfl
  | onward i entry pc pc' htask _ hentering =>
    exact findClientId_eq_none_iff.2 (h.free i _ addr htask (entering_onItsWay (hentering client hclient) haddr))

/-- where nothing is inserted, addresses that are free stay so -/
theorem addrs_subset {o : Op α} (h : s.inserted o = none) : (s.step o).addrs ⊆ s.addrs := by
  rcases clients_step s o with ⟨client, hinserted, _⟩ | ⟨_, hclients⟩
  · exact absurd (h.symm.trans hinserted) (by rintro ⟨⟩)
  · exact (hclients.filterMap Client.addr).subset

omit [DecidableEq α] in
/-- after one task has moved on, a task is that one or has been there -/
theorem moved_cases {tasks tasks' : List (Task α)} {j : ℕ} {t' u : Task α} (htasks : tasks' = tasks.set i t')
    (hu : tasks'[j]? = some u) : (i = j ∧ u = t') ∨ (i ≠ j ∧ tasks[j]? = some u) := by
  rw [htasks] at hu
  by_cases hj : i = j
  · subst hj
    have hi : i < (tasks.set i t').length := (List.getElem?_eq_some_iff.mp hu).1
    rw [List.getElem?_set_self (by rwa [List.length_set] at hi)] at hu
    exact .inl ⟨rfl, (Option.some.inj hu).symm⟩
  · rw [List.getElem?_set_ne hj] at hu
    exact .inr ⟨hj, hu⟩

omit [DecidableEq α] in
/-- one task moves on: a registration that is on its way after that was so before, or is the only one -/
theorem clear_set (h : Clear s) {s' : Server α} {i : ℕ} {t t' : Task α} (htask : s.tasks[i]? = some t)
    (htasks : s'.tasks = s.tasks.set i t')
    (hfree : ∀ (j : ℕ) (u : Task α) addr, s'.tasks[j]? = some u → u.OnItsWay addr → addr ∉ s'.addrs)
    (hon : ∀ addr, t'.OnItsWay addr → t.OnItsWay addr ∨ ∀ u ∈ s.tasks, ¬ Task.OnItsWay u addr) : Clear s' := by
  -- the task that moves, against another one
  have hmoved : ∀ j u addr, i ≠ j → s.tasks[j]? = some u → t'.OnItsWay addr → u.OnItsWay addr → False := by
    intro j u addr hne hu ht' hway
    rcases hon addr ht' with ht | hnone
    · exact hne (h.alone i j t u addr htask hu ht hway)
    · exact hnone u (List.mem_of_getElem? hu) hway
  refine ⟨hfree, ?_⟩
  intro j k u v addr hu hv hwayu hwayv
  rcases moved_cases htasks hu with ⟨hj, rfl⟩ | ⟨hj, hu⟩
  · rcases moved_cases htasks hv with ⟨hk, _⟩ | ⟨hk, hv⟩
    · exact hj.symm.trans hk
    · exact (hmoved k v addr hk hv hwayu hwayv).elim
  · rcases moved_cases htasks hv with ⟨_, rfl⟩ | ⟨_, hv⟩
    · exact (hmoved j u addr hj hu hwayv hwayu).elim
    · exact h.alone j k u v addr hu hv hwayu hwayv

omit [DecidableEq α] in
/-- a task that has come in is not on its way yet -/
theorem clear_tasks (h : Clear s) {s' : Server α} (haddrs : s'.addrs ⊆ s.addrs)
    (htasks : ∀ (i : ℕ) (t : Task α) addr, s'.tasks[i]? = some t → t.OnItsWay addr → s.tasks[i]? = some t) :
    Clear s' := by
  refine ⟨?_, ?_⟩
  · intro i t addr ht hway hmem
    exact h.free i t addr (htasks i t addr ht hway) hway (haddrs hmem)
  · intro i j t t' addr ht ht' hway hway'
    exact h.alone i j t t' addr (htasks i t addr ht hway) (htasks j t' addr ht' hway') hway hway'

theorem step_clear (h : Clear s) {o : Op α} (hserial : Serial s o) : Clear (s.step o) := by
  have hsteps := steps s o
  generalize htasks : (s.step o).tasks = tasks at hsteps
  cases hsteps with
  | same hinserted => exact clear_tasks h (addrs_subset hinserted) fun i t _ ht _ => htasks ▸ ht
  | arrive entry hinserted =>
    refine clear_tasks h (addrs_subset hinserted) fun i t addr ht hway => ?_
    rw [htasks, List.getElem?_append] at ht
    split_ifs at ht with hi
    · exact ht
    · obtain rfl := List.mem_singleton.mp (List.mem_of_getElem? ht)
      exact absurd hway.2 id
  | find i entry order ho htask horder =>
    subst ho
    obtain ⟨pc, hset, _, hway⟩ := find_tasks htask order
    rw [hset] at htasks
    have haddrs : ∀ addr, addr ∈ (s.step (.find i order)).addrs → addr ∈ order.filterMap Client.addr := fun addr hmem =>
      (horder.filterMap Client.addr).mem_iff.mpr (addrs_subset rfl hmem)
    apply clear_set h htask htasks
    · intro j u addr hu hon hmem
      rcases moved_cases htasks hu with ⟨rfl, rfl⟩ | ⟨_, hu⟩
      · exact (hway addr hon).1 (haddrs addr hmem)
      · exact h.free j u addr hu hon (addrs_subset rfl hmem)
    · intro addr hon
      exact .inr (hserial _ htask rfl (hway addr hon).2 addr hon.1)
  | onward i entry pc pc' htask hon hentering =>
    apply clear_set h htask htasks
    · intro j u addr hu hway
      have hold : ∃ v, s.tasks[j]? = some v ∧ v.OnItsWay addr := by
        rcases moved_cases htasks hu with ⟨rfl, rfl⟩ | ⟨_, hu⟩
        · exact ⟨_, htask, hon.onItsWay addr hway⟩
        · exact ⟨u, hu, hway⟩
      obtain ⟨v, hv, hwayv⟩ := hold
      rcases clients_step s o with ⟨client, hinserted, hclients⟩ | ⟨hinserted, _⟩
      · -- the task that inserts is no longer on its way, and its client has no other's address
        rw [Server.addrs, hclients, List.filterMap_append, List.mem_append]
        rintro (hmem | hmem)
        · exact h.free j v addr hv hwayv hmem
        · have hclient : client.addr = some addr := by simpa using hmem
          have henter := hentering client hinserted
          have hsame := h.alone i j _ v addr htask hv (entering_onItsWay henter hclient) hwayv
          rcases moved_cases htasks hu with ⟨_, rfl⟩ | ⟨hne, _⟩
          · exact hon.entered (by rw [henter]; exact Option.some_ne_none client) hway.2
          · exact hne hsame
      · exact fun hmem => h.free j v addr hv hwayv (addrs_subset hinserted hmem)
    · exact fun addr hway => .inl (hon.onItsWay addr hway)

theorem guarded_of_serial {ops : List (Op α)} (h : Clear s) (hserial : Along Server.step Serial s ops) :
    Along Server.step Server.Guarded s ops := by
  induction ops generalizing s with
  | nil => trivial
  | cons o ops ih => exact ⟨guarded_of_clear h o, ih (step_clear h hserial.1) hserial.2⟩

/-- **One client per address.** In every state of a run there is one client for an address exactly if every client that
is inserted on the way has an address that is free at that moment; and this is so where registrations from one address
are looked up one at a time. -/
theorem oneEach_iff (requireAuth : Bool) (ops : List (Op α)) :
    ((∀ n, OneEach (run Server.step (.spawn requireAuth) (ops.take n))) ↔
        Along Server.step Server.Guarded (.spawn requireAuth) ops) ∧
      (Along Server.step Serial (.spawn requireAuth) ops →
        Along Server.step Server.Guarded (.spawn requireAuth) ops) := by
  constructor
  · simp only [oneEach_iff_nodup]
    exact @Core.run_inv_iff _ _ Server.step Server.Guarded (fun s => s.addrs.Nodup)
      (fun s o h => step_nodup_iff h o) _ ops List.nodup_nil
  · apply guarded_of_serial
    constructor
    · intro i t addr h
      exact absurd h (by rintro ⟨⟩)
    · intro i j t t' addr h
      exact absurd h (by rintro ⟨⟩)

/-- two registrations from address 7, both looked up in the empty table -/
def bothLookedUp : List (Op ℕ) :=
  let entry := Entry.message (.address 7) (.registerClientRequest ⟨"client", false, none⟩)
  [.arrive entry, .arrive entry, .find 0 [], .find 1 [], .next 0, .next 1, .next 0, .next 1]

theorem registered_twice : ¬ ∀ (requireAuth : Bool) (ops : List (Op ℕ)) (n : ℕ),
    OneEach (run Server.step (.spawn requireAuth) (ops.take n)) := by
  intro h
  exact absurd (h false bothLookedUp 8).one (by decide)

end

end BigWorlds.Serving
