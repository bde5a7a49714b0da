/-
The streams of subscriptions (`executor.rs`, `LocalExec::execute_to_multi`; `worker/mod.rs`, the arms of `Step` and
`Invoke` and the answer of `Subscribe`; `server/mod.rs`, the arm of `SubscribeRequest`; `server/grpc/service.rs`,
`subscribe`; `sim.rs`, `subscribe`).

Between the worker and a subscriber there are channels that hold one message each, and tasks that receive from one and
send to the next, with one message in hand. A handler is a queue here like a channel: `bounds` has the bounds of all of
them, from the worker's channel on. A local subscriber reads that channel itself; over a server there are two more
queues, over gRPC two more again. A task of the worker waits while the first queue is full.

The worker is the one of `Subscriptions`, where a product counts as received when it is sent.

- `subscriber_reads_in_order`: a subscriber reads what the worker's log has sent to it, in order; what it has not read
  yet is on the way;
- `goes_on_iff`: a task that is about to send a product gets to do so, if messages are passed on, unless all queues on
  the way are full and the subscriber is still there;
- `unread_stalls`: a subscriber that does not read gets no more messages than the queues hold, and then every task that
  has it in its list is held up for as long as it does not read: no `Step` comes to an end any more;
- `end_means_all`: a subscriber that has come to the end of its stream has read all that was ever sent to it.

Once a subscriber has gone, sending to it fails, which the worker ignores.
-/
import BigWorlds.Core.Pipeline
import BigWorlds.Worker.Subscriptions

namespace BigWorlds.Subscriptions

open BigWorlds.Core (Pipeline)

/-! ## Streams -/

/-- `Response::Subscribe`, with the identifier of the subscription, or `Response::Query` -/
inductive Item where
  | subscribed
  | product (p : QueryProduct)

def Item.product? : Item → Option QueryProduct
  | .subscribed => none
  | .product p => some p

def Item.isSubscribed : Item → Bool
  | .subscribed => true
  | .product _ => false

structure Stream where
  pipe : Pipeline Item
  /-- what the subscriber has read -/
  got : List Item
  /-- the identifier has been sent -/
  told : Bool
  /-- the subscriber has not gone -/
  here : Bool

def Stream.opened (bounds : List ℕ) : Stream := ⟨Pipeline.empty bounds, [], false, true⟩

/-- what has been read or is on the way -/
def Stream.all (st : Stream) : List Item := st.got ++ Pipeline.contents st.pipe

structure System where
  worker : Worker
  stream : Uuid → Option Stream

inductive Op where
  /-- an action of the worker -/
  | act (a : Action)
  /-- the handler of `Subscribe` answers -/
  | tell (id : Uuid)
  /-- a message is passed on from one queue to the next -/
  | shift (id : Uuid) (i : ℕ)
  | read (id : Uuid)
  | leave (id : Uuid)

namespace System

/-- the product that the action sends, and to whom -/
def sending (w : Worker) : Action → Option (Subscription × QueryProduct)
  | .serve t answer =>
    match w.tasks[t]? with
    | some ⟨_, _, .serving o (sub :: _)⟩ => if sub.servedOn o then (answer sub.query).map (sub, ·) else none
    | _ => none
  | _ => none

def setStream (s : System) (id : Uuid) (st : Stream) : System :=
  { s with stream := Function.update s.stream id (some st) }

/-- a message is put into the first queue of a stream; `none` while it is full -/
def send (s : System) (id : Uuid) (item : Item) : Option System :=
  match s.stream id with
  | some st =>
    if st.here then (Pipeline.put st.pipe item).map fun pipe => s.setStream id { st with pipe }
    else some s
  | none => some s

def act (bounds : Uuid → List ℕ) (s : System) (a : Action) : System :=
  match a with
  | .subscribe id _ _ =>
    if s.worker.log.any (·.mentions id) then s
    else { s.setStream id (.opened (bounds id)) with worker := s.worker.step a }
  | _ =>
    match sending s.worker a with
    | some (sub, product) =>
      match s.send sub.id (.product product) with
      | some s' => { s' with worker := s.worker.step a }
      | none => s
    | none => { s with worker := s.worker.step a }

def tell (s : System) (id : Uuid) : System :=
  match s.stream id with
  | some st =>
    if st.told then s
    else if st.here then
      match Pipeline.put st.pipe .subscribed with
      | some pipe => s.setStream id { st with pipe, told := true }
      | none => s
    else s.setStream id { st with told := true }
  | none => s

/-- what happens to the stream of a subscriber that is there -/
def whileHere (s : System) (id : Uuid) (f : Stream → Stream) : System :=
  match s.stream id with
  | some st => if st.here then s.setStream id (f st) else s
  | none => s

def read (st : Stream) : Stream :=
  match Pipeline.take st.pipe with
  | some (item, pipe) => { st with pipe, got := st.got ++ [item] }
  | none => st

def step (bounds : Uuid → List ℕ) (s : System) : Op → System
  | .act a => s.act bounds a
  | .tell id => s.tell id
  | .shift id i => s.whileHere id fun st => { st with pipe := Pipeline.shift st.pipe i }
  | .read id => s.whileHere id read
  | .leave id => s.whileHere id fun st => { st with here := false }

def start : System := ⟨.idle, fun _ => none⟩

def run (bounds : Uuid → List ℕ) (ops : List Op) : System := Core.run (step bounds) start ops

end System

/-! ## What the log has sent -/

def productFor (id : Uuid) : Entry → Option QueryProduct
  | .delivered _ _ sub product => if sub.id = id then some product else none
  | _ => none

/-- the products for a subscription, in the order in which they were sent -/
def products (id : Uuid) (log : List Entry) : List QueryProduct := log.filterMap (productFor id)

theorem products_append (id : Uuid) (log : List Entry) (e : Entry) :
    products id (log ++ [e]) = products id log ++ (productFor id e).toList := by
  unfold products
  rw [List.filterMap_append]
  cases h : productFor id e <;> simp [h]

/-- what an action does to the log: the product that it sends, or nothing that is about products -/
theorem products_step (w : Worker) (a : Action) (id : Uuid) :
    products id (w.step a).log =
      products id w.log ++
        match System.sending w a with
        | some (sub, product) => if sub.id = id then [product] else []
        | none => [] := by
  cases a with
  | subscribe id' triggers query =>
    simp only [Worker.step, System.sending]
    split_ifs
    · rw [List.append_nil]
    · rw [products_append]
      rfl
  | unsubscribe id' =>
    simp only [Worker.step, System.sending]
    rw [products_append]
    rfl
  | step | invoke events =>
    simp only [Worker.step, System.sending, Worker.begin_]
    rw [products_append]
    rfl
  | snapshot t | fail t =>
    simp only [Worker.step, System.sending, List.append_nil]
    cases w.tasks[t]? <;> rfl
  | serve t answer =>
    simp only [Worker.step, System.sending]
    cases w.tasks[t]? with
    | none => exact (List.append_nil _).symm
    | some task =>
      obtain ⟨occasions, turn, phase⟩ := task
      simp only [Worker.serveNext]
      cases phase with
      | before | ended => exact (List.append_nil _).symm
      | serving o rest =>
        cases rest with
        | nil => exact (List.append_nil _).symm
        | cons sub rest =>
          dsimp only
          by_cases hserved : sub.servedOn o = true
          · cases answer sub.query with
            | none => simp [hserved, Worker.setTask]
            | some product =>
              simp only [hserved, if_true, Option.map_some]
              rw [products_append]
              by_cases hid : sub.id = id <;> simp [productFor, hid]
          · simp [hserved, Worker.setTask]

theorem products_of_none {w : Worker} {a : Action} (h : System.sending w a = none) (id : Uuid) :
    products id (w.step a).log = products id w.log := by
  simpa [h] using products_step w a id

theorem products_of_sending {w : Worker} {a : Action} {sub : Subscription} {product : QueryProduct}
    (h : System.sending w a = some (sub, product)) (id : Uuid) :
    products id (w.step a).log = products id w.log ++ if sub.id = id then [product] else [] := by
  rw [products_step, h]

/-! ## Whom the worker knows -/

/-- every subscription that is listed, or in the list of a task -/
structure Among (P : Subscription → Prop) (w : Worker) : Prop where
  live : ∀ sub ∈ w.subscriptions, P sub
  listed : ∀ (t : ℕ) (task : Task) o rest, w.tasks[t]? = some task → task.phase = .serving o rest → ∀ sub ∈ rest, P sub

section
variable {P Q : Subscription → Prop} {w : Worker}

theorem Among.mono (h : Among P w) (hmono : ∀ sub, P sub → Q sub) : Among Q w where
  live sub hsub := hmono sub (h.live sub hsub)
  listed t task o rest ht hphase sub hsub := hmono sub (h.listed t task o rest ht hphase sub hsub)

theorem Among.setTask (h : Among P w) {t : ℕ} {task : Task}
    (hrest : ∀ o rest, task.phase = .serving o rest → ∀ sub ∈ rest, P sub) : Among P (w.setTask t task) where
  live := h.live
  listed t' task' o rest ht' := by
    rcases tasks_setTask ht' with ⟨-, rfl⟩ | ⟨-, ht'⟩
    · exact hrest o rest
    · exact h.listed t' task' o rest ht'

/-- a task takes its list from the subscriptions, and only a subscription makes one -/
theorem Among.step (h : Among P w) (a : Action)
    (hnew : ∀ id triggers query, a = .subscribe id triggers query → w.log.any (·.mentions id) = false →
      P ⟨id, triggers, query⟩) : Among P (w.step a) := by
  cases a with
  | subscribe id triggers query =>
    simp only [Worker.step]
    cases hknown : w.log.any (·.mentions id) with
    | true => exact h
    | false =>
      refine ⟨fun sub hsub => ?_, h.listed⟩
      rcases List.mem_append.mp hsub with hsub | hsub
      · exact h.live sub hsub
      · rw [List.mem_singleton.mp hsub]
        exact hnew id triggers query rfl hknown
  | unsubscribe id => exact ⟨fun sub hsub => h.live sub (List.mem_filter.mp hsub).1, h.listed⟩
  | step | invoke events =>
    refine ⟨h.live, fun t task o rest ht hphase => ?_⟩
    rcases List.mem_append.mp (List.mem_of_getElem? ht) with hin | hin
    · obtain ⟨t', ht'⟩ := List.getElem?_of_mem hin
      exact h.listed t' task o rest ht' hphase
    · rw [List.mem_singleton.mp hin] at hphase
      cases hphase
  | snapshot t =>
    simp only [Worker.step]
    cases htask : w.tasks[t]? with
    | none => exact h
    | some task =>
      refine h.setTask fun o rest hphase => ?_
      unfold Worker.takeSnapshot at hphase
      split at hphase
      · split at hphase
        · obtain ⟨-, rfl⟩ := Phase.serving.inj hphase
          exact h.live
        · cases hphase
      · exact h.listed t task o rest htask hphase
  | fail t =>
    simp only [Worker.step]
    cases w.tasks[t]? with
    | none => exact h
    | some task => exact h.setTask fun _ _ hphase => by cases hphase
  | serve t answer =>
    simp only [Worker.step]
    cases htask : w.tasks[t]? with
    | none => exact h
    | some task =>
      unfold Worker.serveNext
      dsimp only
      split
      case h_1 o sub rest hphase =>
        have hmoved : Among P (w.setTask t { task with phase := .serving o rest }) :=
          h.setTask fun o' rest' heq sub' hsub' => by
            obtain ⟨-, rfl⟩ := Phase.serving.inj heq
            exact h.listed t task o _ htask hphase sub' (List.mem_cons_of_mem _ hsub')
        split_ifs
        · split
          · exact ⟨hmoved.live, hmoved.listed⟩
          · exact h.setTask fun _ _ hphase => by cases hphase
        · exact hmoved
      case h_2 => exact h.setTask fun _ _ hphase => by cases hphase
      case h_3 => exact h

theorem Among.sending (h : Among P w) {a : Action} {sub : Subscription} {product : QueryProduct}
    (hsending : System.sending w a = some (sub, product)) : P sub := by
  cases a with
  | serve t answer =>
    simp only [System.sending] at hsending
    split at hsending
    case h_1 occasions turn o sub' rest htask =>
      split_ifs at hsending
      obtain ⟨product', -, heq⟩ := Option.map_eq_some_iff.mp hsending
      obtain ⟨rfl, -⟩ := Prod.mk.inj heq
      exact h.listed t _ o _ htask rfl sub' List.mem_cons_self
    case h_2 => cases hsending
  | _ => cases hsending

end

theorem step_log (w : Worker) (a : Action) : w.log <+: (w.step a).log := by
  cases a with
  | subscribe id triggers query =>
    simp only [Worker.step]
    split_ifs
    · exact List.prefix_refl _
    · exact List.prefix_append _ _
  | unsubscribe id | step | invoke events => exact List.prefix_append _ _
  | snapshot t | fail t =>
    simp only [Worker.step]
    cases w.tasks[t]? <;> exact List.prefix_refl _
  | serve t answer =>
    simp only [Worker.step]
    cases w.tasks[t]? with
    | none => exact List.prefix_refl _
    | some task =>
      unfold Worker.serveNext
      dsimp only
      repeat' split
      all_goals first | exact List.prefix_refl _ | exact List.prefix_append _ _

theorem mentions_step {w : Worker} {id : Uuid} (h : w.log.any (·.mentions id) = true) (a : Action) :
    (w.step a).log.any (·.mentions id) = true := by
  obtain ⟨e, he, hmentions⟩ := List.any_eq_true.mp h
  exact List.any_eq_true.mpr ⟨e, (step_log w a).subset he, hmentions⟩

theorem mentions_subscribe (w : Worker) (id : Uuid) (triggers : List Trigger) (query : Query) :
    (w.step (.subscribe id triggers query)).log.any (·.mentions id) = true := by
  simp only [Worker.step]
  cases hknown : w.log.any (·.mentions id) with
  | true => exact hknown
  | false => simp [Entry.mentions]

/-- what is listed, or in the list of a task, has been subscribed, and nothing has been sent to anybody else -/
structure Known (w : Worker) : Prop where
  among : Among (fun sub => w.log.any (·.mentions sub.id) = true) w
  served : ∀ id, w.log.any (·.mentions id) = false → products id w.log = []

theorem known_idle : Known .idle where
  among := ⟨fun _ h => absurd h List.not_mem_nil, fun _ _ _ _ h => absurd h (by simp [Worker.idle])⟩
  served _ _ := rfl

theorem Known.step {w : Worker} (h : Known w) (a : Action) : Known (w.step a) := by
  refine ⟨(h.among.mono fun sub hsub => mentions_step hsub a).step a ?_, fun id hfresh => ?_⟩
  · intro id triggers query ha hnew
    exact ha ▸ mentions_subscribe w id triggers query
  · have hbefore : w.log.any (·.mentions id) = false :=
      Bool.eq_false_iff.mpr fun hmentioned => by
        rw [mentions_step hmentioned a] at hfresh
        cases hfresh
    have hnil := h.served id hbefore
    cases hsending : System.sending w a with
    | none => exact (products_of_none hsending id).trans hnil
    | some r =>
      obtain ⟨sub, product⟩ := r
      have hother : sub.id ≠ id := fun hid => by
        have hmentioned := h.among.sending hsending
        rw [hid, hbefore] at hmentioned
        cases hmentioned
      rw [products_of_sending hsending, hnil, if_neg hother]
      rfl

/-! ## What an operation does -/

/-- what becomes of the stream of a subscriber, apart from the products that are sent to it -/
inductive Stream.Moves (id : Uuid) (o : Op) (st : Stream) : Stream → Prop where
  | told (pipe : Pipeline Item) (hhere : st.here = true) (htold : st.told = false)
    (hput : Pipeline.put st.pipe .subscribed = some pipe) : Moves id o st { st with pipe, told := true }
  | toldNobody (hgone : st.here = false) : Moves id o st { st with told := true }
  | shifted (i : ℕ) (hhere : st.here = true) : Moves id o st { st with pipe := Pipeline.shift st.pipe i }
  | read (item : Item) (pipe : Pipeline Item) (ho : o = .read id) (hhere : st.here = true)
    (htake : Pipeline.take st.pipe = some (item, pipe)) : Moves id o st { st with pipe, got := st.got ++ [item] }
  | left (ho : o = .leave id) (hhere : st.here = true) : Moves id o st { st with here := false }

/-- what an action of the worker comes to -/
inductive Acts (bounds : Uuid → List ℕ) (s : System) (a : Action) : System → Prop where
  | again : Acts bounds s a s
  | opened (id : Uuid) (triggers : List Trigger) (query : Query) (ha : a = .subscribe id triggers query)
    (hfresh : s.worker.log.any (·.mentions id) = false) :
    Acts bounds s a ⟨s.worker.step a, Function.update s.stream id (some (.opened (bounds id)))⟩
  | plain (hnone : System.sending s.worker a = none) : Acts bounds s a ⟨s.worker.step a, s.stream⟩
  | waits (sub : Subscription) (product : QueryProduct) (st : Stream)
    (hsending : System.sending s.worker a = some (sub, product)) (hst : s.stream sub.id = some st)
    (hhere : st.here = true) (hput : Pipeline.put st.pipe (.product product) = none) : Acts bounds s a s
  | sent (sub : Subscription) (product : QueryProduct) (st : Stream) (pipe : Pipeline Item)
    (hsending : System.sending s.worker a = some (sub, product)) (hst : s.stream sub.id = some st)
    (hhere : st.here = true) (hput : Pipeline.put st.pipe (.product product) = some pipe) :
    Acts bounds s a ⟨s.worker.step a, Function.update s.stream sub.id (some { st with pipe })⟩
  | missed (sub : Subscription) (product : QueryProduct)
    (hsending : System.sending s.worker a = some (sub, product))
    (hgone : ∀ st, s.stream sub.id = some st → st.here = false) : Acts bounds s a ⟨s.worker.step a, s.stream⟩

theorem act_sends {bounds : Uuid → List ℕ} {s : System} {a : Action} (hact : s.act bounds a =
    match System.sending s.worker a with
    | some (sub, product) =>
      match s.send sub.id (.product product) with
      | some s' => { s' with worker := s.worker.step a }
      | none => s
    | none => { s with worker := s.worker.step a }) : Acts bounds s a (s.act bounds a) := by
  rw [hact]
  cases hsending : System.sending s.worker a with
  | none => exact .plain hsending
  | some r =>
    obtain ⟨sub, product⟩ := r
    simp only [System.send]
    cases hst : s.stream sub.id with
    | none => exact .missed sub product hsending fun st h => by rw [hst] at h; cases h
    | some st =>
      dsimp only
      by_cases hhere : st.here = true
      · rw [if_pos hhere]
        cases hput : Pipeline.put st.pipe (.product product) with
        | none => exact .waits sub product st hsending hst hhere hput
        | some pipe => exact .sent sub product st pipe hsending hst hhere hput
      · rw [if_neg hhere]
        refine .missed sub product hsending fun st' h => ?_
        rw [hst] at h
        rw [← Option.some.inj h]
        exact Bool.eq_false_iff.mpr hhere

theorem act_acts (bounds : Uuid → List ℕ) (s : System) (a : Action) : Acts bounds s a (s.act bounds a) := by
  cases a with
  | subscribe id triggers query =>
    simp only [System.act]
    cases hfresh : s.worker.log.any (·.mentions id) with
    | true => exact .again
    | false => exact .opened id triggers query rfl hfresh
  | unsubscribe id | step | invoke events | snapshot t | serve t answer | fail t => exact act_sends rfl

/-- what an operation does to the stream of one subscription, and what the log has sent to it afterwards -/
inductive Passes (bounds : Uuid → List ℕ) (id : Uuid) (o : Op) (s s' : System) : Prop where
  | same (hstream : s'.stream id = s.stream id)
    (hproducts : products id s'.worker.log = products id s.worker.log)
  | opened (hfresh : s.worker.log.any (·.mentions id) = false)
    (hmentioned : s'.worker.log.any (·.mentions id) = true) (hstream : s'.stream id = some (.opened (bounds id)))
    (hproducts : products id s'.worker.log = products id s.worker.log)
  | sent (st : Stream) (pipe : Pipeline Item) (product : QueryProduct) (hst : s.stream id = some st)
    (hhere : st.here = true) (hput : Pipeline.put st.pipe (.product product) = some pipe)
    (hstream : s'.stream id = some { st with pipe })
    (hproducts : products id s'.worker.log = products id s.worker.log ++ [product])
  | missed (product : QueryProduct) (hgone : ∀ st, s.stream id = some st → st.here = false)
    (hstream : s'.stream id = s.stream id)
    (hproducts : products id s'.worker.log = products id s.worker.log ++ [product])
  | moved (st st' : Stream) (hst : s.stream id = some st) (hmoves : st.Moves id o st')
    (hstream : s'.stream id = some st') (hworker : s'.worker = s.worker)

theorem Acts.passes {bounds : Uuid → List ℕ} {s s' : System} {a : Action} (h : Acts bounds s a s') (id : Uuid) :
    Passes bounds id (.act a) s s' := by
  cases h with
  | again | waits => exact .same rfl rfl
  | opened id' triggers query ha hfresh =>
    subst ha
    have hproducts := products_of_none (w := s.worker) (a := .subscribe id' triggers query) rfl id
    by_cases hid : id = id'
    · subst hid
      exact .opened hfresh (mentions_subscribe s.worker id triggers query) (Function.update_self ..) hproducts
    · exact .same (Function.update_of_ne hid ..) hproducts
  | plain hnone => exact .same rfl (products_of_none hnone id)
  | sent sub product st pipe hsending hst hhere hput =>
    have hproducts := products_of_sending hsending id
    by_cases hid : sub.id = id
    · subst hid
      rw [if_pos rfl] at hproducts
      exact .sent st pipe product hst hhere hput (Function.update_self ..) hproducts
    · rw [if_neg hid, List.append_nil] at hproducts
      exact .same (Function.update_of_ne (Ne.symm hid) ..) hproducts
  | missed sub product hsending hgone =>
    have hproducts := products_of_sending hsending id
    by_cases hid : sub.id = id
    · subst hid
      rw [if_pos rfl] at hproducts
      exact .missed product hgone rfl hproducts
    · rw [if_neg hid, List.append_nil] at hproducts
      exact .same rfl hproducts

/-- one stream is set, the worker stays as it is -/
theorem passes_setStream {bounds : Uuid → List ℕ} {s : System} {id : Uuid} {o : Op} {st st' : Stream}
    (hst : s.stream id = some st) (hmoves : st.Moves id o st') (id' : Uuid) :
    Passes bounds id' o s (s.setStream id st') := by
  by_cases hid : id' = id
  · subst hid
    exact .moved st st' hst hmoves (Function.update_self ..) rfl
  · exact .same (Function.update_of_ne hid ..) rfl

theorem whileHere_passes {bounds : Uuid → List ℕ} {s : System} {id : Uuid} {o : Op} {f : Stream → Stream}
    (hmoves : ∀ st, st.here = true → f st = st ∨ st.Moves id o (f st)) (id' : Uuid) :
    Passes bounds id' o s (s.whileHere id f) := by
  unfold System.whileHere
  cases hst : s.stream id with
  | none => exact .same rfl rfl
  | some st =>
    dsimp only
    by_cases hhere : st.here = true
    · rw [if_pos hhere]
      rcases hmoves st hhere with heq | hmoves
      · refine .same ?_ rfl
        by_cases hid : id' = id
        · subst hid
          rw [heq, hst]
          exact Function.update_self ..
        · exact Function.update_of_ne hid ..
      · exact passes_setStream hst hmoves id'
    · rw [if_neg hhere]
      exact .same rfl rfl

theorem step_passes (bounds : Uuid → List ℕ) (s : System) (o : Op) (id : Uuid) :
    Passes bounds id o s (s.step bounds o) := by
  cases o with
  | act a => exact (act_acts bounds s a).passes id
  | tell id' =>
    simp only [System.step, System.tell]
    cases hst : s.stream id' with
    | none => exact .same rfl rfl
    | some st =>
      dsimp only
      by_cases htold : st.told = true
      · rw [if_pos htold]
        exact .same rfl rfl
      · rw [if_neg htold]
        by_cases hhere : st.here = true
        · rw [if_pos hhere]
          cases hput : Pipeline.put st.pipe .subscribed with
          | none => exact .same rfl rfl
          | some pipe => exact passes_setStream hst (.told pipe hhere (Bool.eq_false_iff.mpr htold) hput) id
        · rw [if_neg hhere]
          exact passes_setStream hst (.toldNobody (Bool.eq_false_iff.mpr hhere)) id
  | shift id' i => exact whileHere_passes (fun st hhere => .inr (.shifted i hhere)) id
  | read id' =>
    refine whileHere_passes (fun st hhere => ?_) id
    unfold System.read
    cases htake : Pipeline.take st.pipe with
    | none => exact .inl rfl
    | some r => exact .inr (.read r.1 r.2 rfl hhere htake)
  | leave id' => exact whileHere_passes (fun st hhere => .inr (.left rfl hhere)) id

theorem Acts.worker {bounds : Uuid → List ℕ} {s s' : System} {a : Action} (h : Acts bounds s a s') :
    s'.worker = s.worker ∨ s'.worker = s.worker.step a := by
  cases h with
  | again | waits => exact .inl rfl
  | opened | plain | sent | missed => exact .inr rfl

theorem step_worker (bounds : Uuid → List ℕ) (s : System) (o : Op) :
    (s.step bounds o).worker = s.worker ∨ ∃ a, o = .act a ∧ (s.step bounds o).worker = s.worker.step a := by
  cases o with
  | act a => exact (act_acts bounds s a).worker.imp_right fun h => ⟨a, rfl, h⟩
  | tell id =>
    left
    simp only [System.step, System.tell]
    repeat' split
    all_goals rfl
  | shift id i | read id | leave id =>
    left
    simp only [System.step, System.whileHere]
    repeat' split
    all_goals rfl

/-! ## In order -/

namespace Stream

/-- what was sent has been read or is on the way, in order, while the subscriber is there; what it has read is a front
of it; and the identifier comes once -/
structure Follows (st : Stream) (sent : List QueryProduct) : Prop where
  all : st.here = true → st.all.filterMap Item.product? = sent ∧ st.all.countP Item.isSubscribed = st.told.toNat
  got : st.got.filterMap Item.product? <+: sent ∧ st.got.countP Item.isSubscribed ≤ 1

variable {st st' : Stream} {sent : List QueryProduct}

theorem follows_opened (bs : List ℕ) : (opened bs).Follows [] where
  all _ := by
    rw [Stream.all, opened, Pipeline.contents_empty]
    exact ⟨rfl, rfl⟩
  got := ⟨List.prefix_refl _, Nat.zero_le 1⟩

theorem Follows.send (h : st.Follows sent) {pipe : Pipeline Item} {product : QueryProduct}
    (hput : Pipeline.put st.pipe (.product product) = some pipe) : { st with pipe }.Follows (sent ++ [product]) where
  all hhere := by
    obtain ⟨hproducts, hcount⟩ := h.all hhere
    have hall : Stream.all { st with pipe } = st.all ++ [.product product] := by
      rw [Stream.all, (Pipeline.put_contents hput).1, ← List.append_assoc]
      rfl
    rw [hall, List.filterMap_append, List.countP_append, hproducts, hcount]
    exact ⟨rfl, rfl⟩
  got := ⟨h.got.1.trans (List.prefix_append _ _), h.got.2⟩

theorem Follows.miss (h : st.Follows sent) (hgone : st.here = false) (product : QueryProduct) :
    st.Follows (sent ++ [product]) where
  all hhere := absurd (hgone.symm.trans hhere) (by decide)
  got := ⟨h.got.1.trans (List.prefix_append _ _), h.got.2⟩

theorem Follows.moves (h : st.Follows sent) {id : Uuid} {o : Op} (hmoves : st.Moves id o st') : st'.Follows sent := by
  cases hmoves with
  | told pipe hhere htold hput =>
    refine ⟨fun _ => ?_, h.got⟩
    obtain ⟨hproducts, hcount⟩ := h.all hhere
    have hall : Stream.all { st with pipe, told := true } = st.all ++ [.subscribed] := by
      rw [Stream.all, (Pipeline.put_contents hput).1, ← List.append_assoc]
      rfl
    rw [hall, List.filterMap_append, List.countP_append, hproducts, hcount, htold]
    exact ⟨List.append_nil _, rfl⟩
  | toldNobody hgone => exact ⟨fun hhere => absurd (hgone.symm.trans hhere) (by decide), h.got⟩
  | shifted i hhere =>
    refine ⟨fun _ => ?_, h.got⟩
    have hall : Stream.all { st with pipe := Pipeline.shift st.pipe i } = st.all := by
      rw [Stream.all, (Pipeline.shift_contents st.pipe i).1]
      rfl
    rw [hall]
    exact h.all hhere
  | read item pipe ho hhere htake =>
    have hall : Stream.all { st with pipe, got := st.got ++ [item] } = st.all := by
      rw [Stream.all, List.append_assoc, List.singleton_append, ← (Pipeline.take_contents htake).1]
      rfl
    obtain ⟨hproducts, hcount⟩ := h.all hhere
    have hfront : st.got ++ [item] <+: st.all := by
      rw [← hall]
      exact List.prefix_append _ _
    refine ⟨fun _ => hall ▸ ⟨hproducts, hcount⟩, ?_, ?_⟩
    · rw [← hproducts]
      exact hfront.filterMap _
    · calc (st.got ++ [item]).countP Item.isSubscribed
          ≤ st.all.countP Item.isSubscribed := hfront.sublist.countP_le
        _ = st.told.toNat := hcount
        _ ≤ 1 := Bool.toNat_le _
  | left ho hhere => exact ⟨fun hfalse => absurd hfalse Bool.false_ne_true, h.got⟩

theorem Moves.bounds {id : Uuid} {o : Op} (hmoves : st.Moves id o st') :
    Pipeline.bounds st'.pipe = Pipeline.bounds st.pipe := by
  cases hmoves with
  | told pipe hhere htold hput => exact (Pipeline.put_contents hput).2
  | shifted i hhere => exact (Pipeline.shift_contents st.pipe i).2
  | read item pipe ho hhere htake => exact (Pipeline.take_contents htake).2
  | toldNobody | left => rfl

end Stream

/-- what holds of every state -/
structure Sound (bounds : Uuid → List ℕ) (s : System) : Prop where
  known : Known s.worker
  mentioned : ∀ id st, s.stream id = some st → s.worker.log.any (·.mentions id) = true
  follows : ∀ id st, s.stream id = some st → st.Follows (products id s.worker.log)
  bounds : ∀ id st, s.stream id = some st → Pipeline.bounds st.pipe = bounds id

theorem sound_start (bounds : Uuid → List ℕ) : Sound bounds .start where
  known := known_idle
  mentioned _ _ h := by cases h
  follows _ _ h := by cases h
  bounds _ _ h := by cases h

theorem mentioned_step {bounds : Uuid → List ℕ} {s : System} {o : Op} {id : Uuid}
    (h : s.worker.log.any (·.mentions id) = true) :
    (s.step bounds o).worker.log.any (·.mentions id) = true := by
  rcases step_worker bounds s o with hsame | ⟨a, -, hstep⟩
  · rw [hsame, h]
  · rw [hstep, mentions_step h a]

theorem Sound.step {bounds : Uuid → List ℕ} {s : System} (h : Sound bounds s) (o : Op) :
    Sound bounds (s.step bounds o) := by
  refine ⟨?_, fun id st hst => ?_, fun id st hst => ?_, fun id st hst => ?_⟩
  · rcases step_worker bounds s o with hsame | ⟨a, -, hstep⟩
    · exact hsame ▸ h.known
    · exact hstep ▸ h.known.step a
  · cases step_passes bounds s o id with
    | same hstream hproducts => exact mentioned_step (h.mentioned id st (hstream ▸ hst))
    | opened hfresh hmentioned hstream hproducts => exact hmentioned
    | sent st' pipe product hst' hhere hput hstream hproducts => exact mentioned_step (h.mentioned id st' hst')
    | missed product hgone hstream hproducts => exact mentioned_step (h.mentioned id st (hstream ▸ hst))
    | moved st' st'' hst' hmoves hstream hworker => exact mentioned_step (h.mentioned id st' hst')
  · cases step_passes bounds s o id with
    | same hstream hproducts => exact hproducts ▸ h.follows id st (hstream ▸ hst)
    | opened hfresh hmentioned hstream hproducts =>
      obtain rfl := Option.some.inj (hstream.symm.trans hst)
      rw [hproducts, h.known.served id hfresh]
      exact Stream.follows_opened _
    | sent st' pipe product hst' hhere hput hstream hproducts =>
      obtain rfl := Option.some.inj (hstream.symm.trans hst)
      exact hproducts ▸ (h.follows id st' hst').send hput
    | missed product hgone hstream hproducts =>
      rw [hstream] at hst
      exact hproducts ▸ (h.follows id st hst).miss (hgone st hst) product
    | moved st' st'' hst' hmoves hstream hworker =>
      obtain rfl := Option.some.inj (hstream.symm.trans hst)
      exact hworker ▸ (h.follows id st' hst').moves hmoves
  · cases step_passes bounds s o id with
    | same hstream hproducts => exact h.bounds id st (hstream ▸ hst)
    | opened hfresh hmentioned hstream hproducts =>
      obtain rfl := Option.some.inj (hstream.symm.trans hst)
      exact Pipeline.bounds_empty _
    | sent st' pipe product hst' hhere hput hstream hproducts =>
      obtain rfl := Option.some.inj (hstream.symm.trans hst)
      exact (Pipeline.put_contents hput).2.trans (h.bounds id st' hst')
    | missed product hgone hstream hproducts => exact h.bounds id st (hstream ▸ hst)
    | moved st' st'' hst' hmoves hstream hworker =>
      obtain rfl := Option.some.inj (hstream.symm.trans hst)
      exact hmoves.bounds.trans (h.bounds id st' hst')

theorem sound_run (bounds : Uuid → List ℕ) (ops : List Op) : Sound bounds (System.run bounds ops) :=
  Core.run_keeps (fun _ o h => h.step o) (sound_start bounds) ops

/-- the actions that the worker has got to do -/
theorem run_worker (bounds : Uuid → List ℕ) (ops : List Op) :
    ∃ actions, (System.run bounds ops).worker = Core.run Worker.step .idle actions := by
  have hstep : ∀ (s : System) (o : Op), (∃ actions, s.worker = Core.run Worker.step .idle actions) →
      ∃ actions, (s.step bounds o).worker = Core.run Worker.step .idle actions := by
    rintro s o ⟨actions, hactions⟩
    rcases step_worker bounds s o with hsame | ⟨a, -, hstep⟩
    · exact ⟨actions, hsame.trans hactions⟩
    · refine ⟨actions ++ [a], ?_⟩
      rw [hstep, hactions, Core.run_append]
      rfl
  exact Core.run_keeps hstep ⟨[], rfl⟩ ops

/-- **Streams are in order.** The worker does what it would do with channels that never fill up, and what a subscriber
has read is what the log has sent to it, in order, up to what is on the way. -/
theorem subscriber_reads_in_order (bounds : Uuid → List ℕ) (ops : List Op) :
    (∃ actions, (System.run bounds ops).worker = Core.run Worker.step .idle actions) ∧
      ∀ id st, (System.run bounds ops).stream id = some st →
        st.Follows (products id (System.run bounds ops).worker.log) :=
  ⟨run_worker bounds ops, (sound_run bounds ops).follows⟩

/-! ## Waiting -/

namespace System

/-- all queues on the way to the subscriber are full, and it is there -/
def Full (s : System) (id : Uuid) : Prop :=
  ∃ st, s.stream id = some st ∧ st.here = true ∧ Pipeline.room st.pipe = 0

variable {bounds : Uuid → List ℕ} {s : System} {a : Action} {sub : Subscription} {product : QueryProduct}

theorem act_eq (h : sending s.worker a = some (sub, product)) :
    s.act bounds a =
      match s.send sub.id (.product product) with
      | some s' => { s' with worker := s.worker.step a }
      | none => s := by
  cases a with
  | serve t answer => simp only [act, h]
  | _ => cases h

/-- a task waits for a subscriber that is there and whose queues are full -/
theorem Full.act (h : s.Full sub.id) (hsending : sending s.worker a = some (sub, product)) : s.act bounds a = s := by
  obtain ⟨st, hst, hhere, hroom⟩ := h
  rw [act_eq hsending]
  simp only [send, hst, hhere, if_true, Pipeline.put_of_full hroom, Option.map_none]

theorem act_put {st : Stream} (hsending : sending s.worker a = some (sub, product)) (hst : s.stream sub.id = some st)
    (hput : st.here = true → (Pipeline.put st.pipe (.product product)).isSome = true) :
    (s.act bounds a).worker = s.worker.step a := by
  rw [act_eq hsending]
  simp only [send, hst]
  by_cases hhere : st.here = true
  · obtain ⟨pipe, hpipe⟩ := Option.isSome_iff_exists.mp (hput hhere)
    rw [if_pos hhere, hpipe]
    rfl
  · rw [if_neg hhere]

theorem run_shifts {st : Stream} {id : Uuid} (is : List ℕ) (hst : s.stream id = some st) (hhere : st.here = true) :
    (Core.run (step bounds) s (is.map (Op.shift id))).worker = s.worker ∧
      (Core.run (step bounds) s (is.map (Op.shift id))).stream id =
        some { st with pipe := is.foldl Pipeline.shift st.pipe } := by
  induction is generalizing s st with
  | nil => exact ⟨rfl, hst⟩
  | cons i is ih =>
    have hstep : s.step bounds (.shift id i) = s.setStream id { st with pipe := Pipeline.shift st.pipe i } := by
      simp only [step, whileHere, hst, hhere, if_true]
    rw [List.map_cons, Core.run_cons, hstep]
    exact @ih (s.setStream id _) { st with pipe := Pipeline.shift st.pipe i } (Function.update_self ..) hhere

end System

theorem room_shifts (is : List ℕ) (p : Pipeline Item) :
    Pipeline.room (is.foldl Pipeline.shift p) = Pipeline.room p := by
  induction is generalizing p with
  | nil => rfl
  | cons i is ih => rw [List.foldl_cons, ih, Pipeline.shift_room]

/-- **What a task waits for.** A task that is about to send a product gets to do so, once enough is passed on, exactly
if not all queues on the way to the subscriber are full, or it has gone. -/
theorem goes_on_iff (bounds : Uuid → List ℕ) (hbounds : ∀ id, ∀ b ∈ bounds id, 0 < b) (ops : List Op) (a : Action)
    (sub : Subscription) (product : QueryProduct)
    (hsending : System.sending (System.run bounds ops).worker a = some (sub, product)) :
    (∃ is : List ℕ, (Core.run (System.step bounds) (System.run bounds ops)
        (is.map (Op.shift sub.id) ++ [.act a])).worker = (System.run bounds ops).worker.step a) ↔
      ¬ (System.run bounds ops).Full sub.id := by
  have hsound := sound_run bounds ops
  generalize System.run bounds ops = s at hsending hsound ⊢
  constructor
  · rintro ⟨is, his⟩ ⟨st, hst, hhere, hroom⟩
    -- passing on leaves the queues full, the task waits, and the log is as it was
    obtain ⟨hworker, hstream⟩ := @System.run_shifts bounds s st sub.id is hst hhere
    rw [Core.run_append] at his
    generalize Core.run (System.step bounds) s (is.map (Op.shift sub.id)) = r at his hworker hstream
    have hfull : r.Full sub.id := ⟨_, hstream, hhere, (room_shifts is st.pipe).trans hroom⟩
    have hsame : (r.act bounds a).worker = s.worker.step a := his
    rw [hfull.act (hworker ▸ hsending), hworker] at hsame
    have hlength := congrArg (fun w : Worker => (products sub.id w.log).length) hsame
    simp only [products_of_sending hsending, if_true, List.length_append, List.length_singleton] at hlength
    exact absurd hlength (Nat.ne_of_lt (Nat.lt_succ_self _))
  · intro hfull
    cases hst : s.stream sub.id with
    | none =>
      refine ⟨[], ?_⟩
      show (s.act bounds a).worker = _
      rw [System.act_eq hsending]
      simp only [System.send, hst]
    | some st =>
      by_cases hhere : st.here = true
      · have hroom : 0 < Pipeline.room st.pipe := Nat.pos_of_ne_zero fun hzero => hfull ⟨st, hst, hhere, hzero⟩
        have hpos : ∀ q ∈ st.pipe, 0 < q.bound := fun q hq =>
          hbounds sub.id _ (hsound.bounds sub.id st hst ▸ List.mem_map_of_mem hq)
        obtain ⟨is, his⟩ := Pipeline.exists_shifts_put hpos hroom (Item.product product)
        obtain ⟨hworker, hstream⟩ := @System.run_shifts bounds s st sub.id is hst hhere
        refine ⟨is, ?_⟩
        rw [Core.run_append]
        generalize Core.run (System.step bounds) s (is.map (Op.shift sub.id)) = r at hworker hstream
        show (r.act bounds a).worker = _
        rw [System.act_put (hworker ▸ hsending) hstream fun _ => his, hworker]
      · exact ⟨[], System.act_put hsending hst fun h => absurd h hhere⟩

/-- the channel of a local subscriber -/
def oneMessage (_ : Uuid) : List ℕ := [1]

theorem oneMessage_pos (id : Uuid) : ∀ b ∈ oneMessage id, 0 < b := by
  intro b hb
  rw [List.mem_singleton.mp hb]
  exact Nat.one_pos

/-- a step gets to a subscriber that was just told its identifier -/
def toldThenStep : List Op :=
  [.act (.subscribe (.v4 0) [.stepEvent] everything), .tell (.v4 0), .act .step, .act (.snapshot 0)]

def serveFirst : Action := .serve 0 fun _ => some .empty

theorem goes_on_iff_told :
    (∃ is : List ℕ, (Core.run (System.step oneMessage) (System.run oneMessage toldThenStep)
        (is.map (Op.shift toSteps.id) ++ [.act serveFirst])).worker =
          (System.run oneMessage toldThenStep).worker.step serveFirst) ↔
      ¬ (System.run oneMessage toldThenStep).Full toSteps.id :=
  goes_on_iff oneMessage oneMessage_pos toldThenStep serveFirst toSteps .empty rfl

/-! ## A subscriber that does not read -/

/-- the subscriber reads, or goes -/
def Op.reads (id : Uuid) : Op → Bool
  | .read id' | .leave id' => id' = id
  | _ => false

/-- the task does not fail, and a query that it asks is answered -/
def Op.Spares (t : ℕ) : Op → Prop
  | .act (.fail t') => t' ≠ t
  | .act (.serve t' answer) => t' = t → ∀ query, (answer query).isSome = true
  | _ => True

/-- the subscription is in the list of the task and will be served -/
def Owes (w : Worker) (id : Uuid) (t : ℕ) : Prop :=
  ∃ (task : Task) (o : Occasion) (rest : List Subscription), w.tasks[t]? = some task ∧ task.phase = .serving o rest ∧
    ∃ sub ∈ rest, sub.id = id ∧ sub.servedOn o = true

section
variable {bounds : Uuid → List ℕ} {s : System} {id : Uuid} {o : Op} {st : Stream}

/-- messages that go to a subscriber that does not read take up the room that there is -/
theorem unread_step (hs : Sound bounds s) (hst : s.stream id = some st) (hhere : st.here = true)
    (ho : o.reads id = false) :
    ∃ st', (s.step bounds o).stream id = some st' ∧ st'.here = true ∧
      (products id (s.step bounds o).worker.log).length + Pipeline.room st'.pipe ≤
        (products id s.worker.log).length + Pipeline.room st.pipe ∧
      (products id s.worker.log).length ≤ (products id (s.step bounds o).worker.log).length := by
  cases step_passes bounds s o id with
  | same hstream hproducts =>
    rw [hproducts]
    exact ⟨st, hstream.trans hst, hhere, Nat.le_refl _, Nat.le_refl _⟩
  | opened hfresh hmentioned hstream hproducts =>
    rw [hs.mentioned id st hst] at hfresh
    cases hfresh
  | sent st' pipe product hst' hhere' hput hstream hproducts =>
    obtain rfl := Option.some.inj (hst'.symm.trans hst)
    have hroom := Pipeline.put_room hput
    refine ⟨_, hstream, hhere, ?_, ?_⟩
    · show _ + Pipeline.room pipe ≤ _
      rw [hproducts, hroom, List.length_append, List.length_singleton]
      exact Nat.le_of_eq (by omega)
    · rw [hproducts, List.length_append]
      exact Nat.le_add_right _ _
  | missed product hgone hstream hproducts =>
    rw [hgone st hst] at hhere
    cases hhere
  | moved st₁ st' hst₁ hmoves hstream hworker =>
    obtain rfl := Option.some.inj (hst₁.symm.trans hst)
    rw [hworker]
    refine ⟨st', hstream, ?_, Nat.add_le_add_left ?_ _, Nat.le_refl _⟩
    · cases hmoves with
      | left ho' hhere' =>
        rw [ho'] at ho
        simp [Op.reads] at ho
      | _ => exact hhere
    · cases hmoves with
      | told pipe hhere' htold hput => exact Nat.le_of_lt (Nat.lt_of_succ_le (Pipeline.put_room hput).ge)
      | shifted i hhere' => exact (Pipeline.shift_room st₁.pipe i).le
      | read item pipe ho' hhere' htake =>
        rw [ho'] at ho
        simp [Op.reads] at ho
      | toldNobody | left => exact Nat.le_refl _

theorem System.Full.step (hs : Sound bounds s) (h : s.Full id) (ho : o.reads id = false) :
    (s.step bounds o).Full id := by
  obtain ⟨st, hst, hhere, hroom⟩ := h
  obtain ⟨st', hst', hhere', hle, hmono⟩ := unread_step hs hst hhere ho
  refine ⟨st', hst', hhere', ?_⟩
  omega

/-- while the product of no action goes to the subscriber, a task that owes it one keeps it in its list -/
theorem Owes.step {w : Worker} {t : ℕ} {a : Action} (h : Owes w id t)
    (hsending : ∀ sub product, System.sending w a = some (sub, product) → sub.id ≠ id)
    (hspares : (Op.act a).Spares t) : Owes (w.step a) id t := by
  obtain ⟨task, o, rest, htask, hphase, sub, hsub, hid, hserved⟩ := h
  have hset : ∀ t' task', t' ≠ t → (w.setTask t' task').tasks[t]? = some task := fun t' task' hne => by
    simpa [Worker.setTask, List.getElem?_set_ne hne] using htask
  have hlt : t < w.tasks.length := (List.getElem?_eq_some_iff.mp htask).1
  cases a with
  | subscribe id' triggers query =>
    simp only [Worker.step]
    split_ifs <;> exact ⟨task, o, rest, htask, hphase, sub, hsub, hid, hserved⟩
  | unsubscribe id' => exact ⟨task, o, rest, htask, hphase, sub, hsub, hid, hserved⟩
  | step | invoke events =>
    exact ⟨task, o, rest, (List.getElem?_append_left hlt).trans htask, hphase, sub, hsub, hid, hserved⟩
  | snapshot t' =>
    simp only [Worker.step]
    by_cases ht : t' = t
    · -- a task with a list takes no other
      subst ht
      have hkeeps : w.takeSnapshot task = task := by simp only [Worker.takeSnapshot, hphase]
      refine ⟨task, o, rest, ?_, hphase, sub, hsub, hid, hserved⟩
      simp only [htask, hkeeps, Worker.setTask, List.getElem?_set_self hlt]
    · cases htask' : w.tasks[t']? with
      | none => exact ⟨task, o, rest, htask, hphase, sub, hsub, hid, hserved⟩
      | some task' => exact ⟨task, o, rest, hset t' _ ht, hphase, sub, hsub, hid, hserved⟩
  | fail t' =>
    simp only [Worker.step]
    cases htask' : w.tasks[t']? with
    | none => exact ⟨task, o, rest, htask, hphase, sub, hsub, hid, hserved⟩
    | some task' => exact ⟨task, o, rest, hset t' _ hspares, hphase, sub, hsub, hid, hserved⟩
  | serve t' answer =>
    by_cases ht : t' = t
    · subst ht
      obtain ⟨occasions, turn, phase⟩ := task
      dsimp only at hphase
      subst hphase
      cases rest with
      | nil => cases hsub
      | cons next rest =>
        obtain ⟨product, hproduct⟩ := Option.isSome_iff_exists.mp (hspares rfl next.query)
        -- the next of the list is another one: the subscription is further down
        have hrest : sub ∈ rest := by
          rcases List.mem_cons.mp hsub with rfl | hin
          · refine absurd hid (hsending sub product ?_)
            simp only [System.sending, htask, hserved, if_true, hproduct, Option.map_some]
          · exact hin
        have hmoved : (w.setTask t' ⟨occasions, turn, .serving o rest⟩).tasks[t']? =
            some ⟨occasions, turn, .serving o rest⟩ := by
          simp only [Worker.setTask, List.getElem?_set_self hlt]
        simp only [Worker.step, htask, Worker.serveNext, hproduct]
        split_ifs <;> exact ⟨_, o, rest, hmoved, rfl, sub, hrest, hid, hserved⟩
    · simp only [Worker.step]
      cases htask' : w.tasks[t']? with
      | none => exact ⟨task, o, rest, htask, hphase, sub, hsub, hid, hserved⟩
      | some task' =>
        have hother : (w.serveNext t' task' answer).tasks[t]? = some task := by
          unfold Worker.serveNext
          repeat' split
          all_goals first | exact htask | exact hset t' _ ht
        exact ⟨task, o, rest, hother, hphase, sub, hsub, hid, hserved⟩

theorem owes_step {t : ℕ} (hfull : s.Full id) (h : Owes s.worker id t) (ho : o.Spares t) :
    Owes (s.step bounds o).worker id t := by
  rcases step_worker bounds s o with hsame | ⟨a, rfl, hstep⟩
  · exact hsame ▸ h
  · by_cases hto : ∃ sub product, System.sending s.worker a = some (sub, product) ∧ sub.id = id
    · obtain ⟨sub, product, hsending, rfl⟩ := hto
      have hwaits : s.step bounds (.act a) = s := hfull.act hsending
      rwa [hwaits]
    · rw [hstep]
      exact h.step (fun sub product hsending hid => hto ⟨sub, product, hsending, hid⟩) ho

end

/-- **A subscriber that does not read holds up the worker.** It is sent no more products than there is room for on the
way; and from when all queues are full, a task that has it in its list does not come to an end. -/
theorem unread_stalls (bounds : Uuid → List ℕ) (ops more more' : List Op) (id : Uuid) (st : Stream)
    (hst : (System.run bounds ops).stream id = some st) (hhere : st.here = true)
    (hunread : ∀ o ∈ more ++ more', o.reads id = false) :
    (products id (System.run bounds (ops ++ more)).worker.log).length ≤
        (products id (System.run bounds ops).worker.log).length + Pipeline.room st.pipe ∧
      ((System.run bounds (ops ++ more)).Full id → ∀ t, Owes (System.run bounds (ops ++ more)).worker id t →
        (∀ o ∈ more', o.Spares t) → Owes (System.run bounds (ops ++ more ++ more')).worker id t) := by
  have hrun : ∀ l l' : List Op, System.run bounds (l ++ l') = Core.run (System.step bounds) (System.run bounds l) l' :=
    fun l l' => Core.run_append _ _ l l'
  constructor
  · have hstep : ∀ r o, (Sound bounds r ∧ ∃ st', r.stream id = some st' ∧ st'.here = true ∧
        (products id r.worker.log).length + Pipeline.room st'.pipe ≤
          (products id (System.run bounds ops).worker.log).length + Pipeline.room st.pipe) → o.reads id = false →
        (Sound bounds (r.step bounds o) ∧ ∃ st', (r.step bounds o).stream id = some st' ∧ st'.here = true ∧
          (products id (r.step bounds o).worker.log).length + Pipeline.room st'.pipe ≤
            (products id (System.run bounds ops).worker.log).length + Pipeline.room st.pipe) := by
      rintro r o ⟨hr, st₁, hst₁, hhere₁, hle⟩ ho
      obtain ⟨st₂, hst₂, hhere₂, hle', -⟩ := unread_step hr hst₁ hhere₁ ho
      exact ⟨hr.step o, st₂, hst₂, hhere₂, hle'.trans hle⟩
    have hend := Core.run_inv hstep ⟨sound_run bounds ops, st, hst, hhere, Nat.le_refl _⟩
      (Core.along_iff.mpr fun _ o hn => hunread o (List.mem_append_left _ (List.mem_of_getElem? hn)))
    obtain ⟨-, st', -, -, hle⟩ := hend
    rw [hrun]
    exact (Nat.le_add_right _ _).trans hle
  · intro hfull t howes hspares
    have hstep : ∀ r o, (Sound bounds r ∧ r.Full id ∧ Owes r.worker id t) → (o.reads id = false ∧ o.Spares t) →
        (Sound bounds (r.step bounds o) ∧ (r.step bounds o).Full id ∧ Owes (r.step bounds o).worker id t) := by
      rintro r o ⟨hr, hfull, howes⟩ ⟨ho, hspares⟩
      exact ⟨hr.step o, hfull.step hr ho, owes_step hfull howes hspares⟩
    have hend := Core.run_inv hstep ⟨sound_run bounds (ops ++ more), hfull, howes⟩
      (Core.along_iff.mpr fun _ o hn =>
        ⟨hunread o (List.mem_append_right _ (List.mem_of_getElem? hn)), hspares o (List.mem_of_getElem? hn)⟩)
    rw [hrun]
    exact hend.2.2

/-- the identifier is not read, and the step waits -/
theorem unread_stalls_told :
    (products (.v4 0) (System.run oneMessage (toldThenStep.take 1 ++ toldThenStep.drop 1)).worker.log).length ≤ 0 + 1 ∧
      Owes (System.run oneMessage (toldThenStep.take 1 ++ toldThenStep.drop 1 ++ [.act serveFirst])).worker (.v4 0)
        0 := by
  have hstalls := unread_stalls oneMessage (toldThenStep.take 1) (toldThenStep.drop 1) [.act serveFirst] (.v4 0)
    (.opened [1]) rfl rfl (fun o ho => by
      simp only [toldThenStep, List.drop, List.cons_append, List.nil_append, List.mem_cons, List.not_mem_nil,
        or_false] at ho
      rcases ho with rfl | rfl | rfl | rfl <;> rfl)
  refine ⟨hstalls.1, hstalls.2 ⟨_, rfl, rfl, rfl⟩ 0 ⟨_, .step, [toSteps], rfl, rfl, toSteps, ?_⟩ ?_⟩
  · exact ⟨List.mem_singleton_self _, rfl, rfl⟩
  · intro o ho
    rw [List.mem_singleton.mp ho]
    exact fun _ _ => rfl

/-! ## The end of a stream -/

/-- a subscription that was there is not listed any more, and no task has it in its list: nobody holds the sender of its
stream -/
structure Over (w : Worker) (id : Uuid) : Prop where
  known : w.log.any (·.mentions id) = true
  gone : Among (·.id ≠ id) w

theorem Over.step {w : Worker} {id : Uuid} (h : Over w id) (a : Action) :
    Over (w.step a) id ∧ products id (w.step a).log = products id w.log := by
  refine ⟨⟨mentions_step h.known a, h.gone.step a fun id' triggers query _ hfresh hid => ?_⟩, ?_⟩
  · -- an identifier that was used is not taken again
    dsimp only at hid
    rw [hid, h.known] at hfresh
    cases hfresh
  · cases hsending : System.sending w a with
    | none => exact products_of_none hsending id
    | some r =>
      have hother : r.1.id ≠ id := h.gone.sending hsending
      rw [products_of_sending hsending, if_neg hother, List.append_nil]

/-- the subscriber has come to the end of its stream: it was told its identifier, nothing is on the way, and no sender
is left -/
def System.Ended (s : System) (id : Uuid) (st : Stream) : Prop :=
  s.stream id = some st ∧ st.here = true ∧ st.told = true ∧ Pipeline.contents st.pipe = [] ∧ Over s.worker id

/-- **A stream ends when everything was read.** A subscriber that has come to the end of its stream has read its
identifier, once, and all the products that it has ever been sent or ever will be. -/
theorem end_means_all (bounds : Uuid → List ℕ) (ops more : List Op) (id : Uuid) (st : Stream)
    (hended : (System.run bounds ops).Ended id st) :
    st.got.filterMap Item.product? = products id (System.run bounds (ops ++ more)).worker.log ∧
      st.got.countP Item.isSubscribed = 1 := by
  obtain ⟨hst, hhere, htold, hempty, hover⟩ := hended
  have hrun : System.run bounds (ops ++ more) = Core.run (System.step bounds) (System.run bounds ops) more :=
    Core.run_append _ _ ops more
  obtain ⟨hproducts, hcount⟩ := ((sound_run bounds ops).follows id st hst).all hhere
  rw [Stream.all, hempty, List.append_nil] at hproducts hcount
  have hstep : ∀ (s : System) (o : Op),
      (Over s.worker id ∧ products id s.worker.log = products id (System.run bounds ops).worker.log) →
      (Over (s.step bounds o).worker id ∧
        products id (s.step bounds o).worker.log = products id (System.run bounds ops).worker.log) := by
    intro s o h
    rcases step_worker bounds s o with hsame | ⟨a, -, hstep⟩
    · rwa [hsame]
    · rw [hstep]
      exact ⟨(h.1.step a).1, (h.1.step a).2.trans h.2⟩
  have hlater := Core.run_keeps hstep ⟨hover, rfl⟩ more
  refine ⟨hproducts.trans ?_, ?_⟩
  · rw [hrun, hlater.2]
  · rw [hcount, htold]
    rfl

/-- a subscriber reads its identifier and unsubscribes -/
def toldThenOver : List Op :=
  [.act (.subscribe (.v4 0) [.stepEvent] everything), .tell (.v4 0), .read (.v4 0), .act (.unsubscribe (.v4 0))]

theorem end_means_all_unsubscribed :
    [Item.subscribed].filterMap Item.product? =
        products (.v4 0) (System.run oneMessage (toldThenOver ++ [.act .step, .act (.snapshot 0)])).worker.log ∧
      [Item.subscribed].countP Item.isSubscribed = 1 := by
  refine end_means_all oneMessage toldThenOver [.act .step, .act (.snapshot 0)] (.v4 0)
    ⟨[⟨1, [], Nat.zero_le 1⟩], [.subscribed], true, true⟩ ⟨rfl, rfl, rfl, rfl, rfl, ?_, ?_⟩
  · exact fun _ h => absurd h List.not_mem_nil
  · exact fun _ _ _ _ h => by cases h

end BigWorlds.Subscriptions
