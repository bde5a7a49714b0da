/-
Subscriptions of a worker (`worker/mod.rs`, the arms of `Step` and `Invoke`; `worker/manager.rs`, the arms of
`Subscribe` and `Unsubscribe`; `query.rs`, `Trigger`).

Each request has a task of its own. A `Step` takes one snapshot of the subscriptions, an `Invoke` one for each event,
and then processes the queries of the snapshot one after the other; other requests are handled in between. In `Invoke`
the `continue` stands in a loop over the triggers, so every subscription of the snapshot is served.

- `Delivered`: what subscribers are promised, read off the log of what they can see;
- `inv_step`, `subscriptions_delivered`: it holds in every state of a run in which each event that is invoked fires
  all live subscriptions, nobody unsubscribes what a task is still to serve, and no task fails while it owes a product;
- `any_event_delivers`: a subscription to steps that gets a product for an event.

How a query is answered is not modelled here: an action carries the answers. A product counts as received when it is
sent; the receiver reads its channel. Identifiers of subscriptions are fresh.
-/
import BigWorlds.Core.Run
import BigWorlds.Query.Process

namespace BigWorlds.Subscriptions

/-! ## Subscriptions -/

/-- `query::Trigger`; a duration in nanoseconds -/
inductive Trigger where
  | stepEvent
  | event (name : EventName)
  | eventAny (names : List EventName)
  | timer (duration : ℕ)
  | entityAccess (name : EntityName)
  | entityMutation (name : EntityName)
  | dataMutation (addr : Address)
  | dataMutationAny (addrs : List Address)
  | dataMutationAll (addrs : List Address)
deriving DecidableEq, Repr

structure Subscription where
  id : Uuid
  triggers : List Trigger
  query : Query
deriving DecidableEq

/-- what a task processes subscriptions for: the step, or an event -/
inductive Occasion where
  | step
  | event (name : EventName)
deriving DecidableEq, Repr

def Trigger.isFor (name : EventName) : Trigger → Bool
  | .event name' => name' = name
  | .eventAny names => name ∈ names
  | _ => false

/-- the triggers ask for a product on this occasion -/
def Occasion.Fires (triggers : List Trigger) : Occasion → Bool
  | .step => .stepEvent ∈ triggers
  | .event name => triggers.any (·.isFor name)

/-- the loop over the triggers in `Invoke`: `continue` goes on with the next trigger -/
def reachesQuery : List Trigger → Bool
  | [] => true
  | .event _ :: triggers => reachesQuery triggers
  | _ :: triggers => reachesQuery triggers

/-- whether the loop over the snapshot gets to the query of the subscription -/
def Subscription.servedOn (sub : Subscription) : Occasion → Bool
  | .step => .stepEvent ∈ sub.triggers
  | .event _ => reachesQuery sub.triggers

theorem reachesQuery_true (triggers : List Trigger) : reachesQuery triggers = true := by
  induction triggers with
  | nil => rfl
  | cons trigger triggers ih => cases trigger <;> exact ih

theorem servedOn_of_fires {sub : Subscription} {o : Occasion} (h : o.Fires sub.triggers = true) :
    sub.servedOn o = true := by
  cases o with
  | step => exact h
  | event name => exact reachesQuery_true sub.triggers

/-! ## The worker -/

inductive Phase where
  /-- before the snapshot for the next occasion, or at the end -/
  | before
  | serving (o : Occasion) (rest : List Subscription)
  | ended
deriving DecidableEq

/-- a request that is being handled: its occasions, and how many of them are through -/
structure Task where
  occasions : List Occasion
  turn : ℕ
  phase : Phase
deriving DecidableEq

/-- what can be seen from outside, in order -/
inductive Entry where
  | subscribed (sub : Subscription)
  | unsubscribed (id : Uuid)
  | began (task : ℕ)
  | delivered (task turn : ℕ) (sub : Subscription) (product : QueryProduct)

structure Worker where
  subscriptions : List Subscription
  tasks : List Task
  log : List Entry

def Worker.idle : Worker := ⟨[], [], []⟩

inductive Action where
  | subscribe (id : Uuid) (triggers : List Trigger) (query : Query)
  | unsubscribe (id : Uuid)
  | step
  | invoke (events : List EventName)
  /-- the task gets the list of subscriptions from the manager, or is through -/
  | snapshot (task : ℕ)
  /-- the task gets to the next subscription of its list; a query without an answer ends the task -/
  | serve (task : ℕ) (answer : Query → Option QueryProduct)
  /-- an error or a panic anywhere else -/
  | fail (task : ℕ)

def Entry.mentions (id : Uuid) : Entry → Bool
  | .subscribed sub => sub.id = id
  | .unsubscribed id' => id' = id
  | _ => false

namespace Worker

def begin_ (w : Worker) (occasions : List Occasion) : Worker :=
  { w with tasks := w.tasks ++ [⟨occasions, 0, .before⟩], log := w.log ++ [.began w.tasks.length] }

def setTask (w : Worker) (t : ℕ) (task : Task) : Worker := { w with tasks := w.tasks.set t task }

def takeSnapshot (w : Worker) (task : Task) : Task :=
  match task.phase with
  | .before =>
    match task.occasions[task.turn]? with
    | some o => { task with phase := .serving o w.subscriptions }
    | none => { task with phase := .ended }
  | _ => task

/-- the body of the loop over the snapshot -/
def serveNext (w : Worker) (t : ℕ) (task : Task) (answer : Query → Option QueryProduct) : Worker :=
  match task.phase with
  | .serving o (sub :: rest) =>
    if sub.servedOn o then
      match answer sub.query with
      | some product =>
        { w.setTask t { task with phase := .serving o rest } with
          log := w.log ++ [.delivered t task.turn sub product] }
      | none => w.setTask t { task with phase := .ended }
    else w.setTask t { task with phase := .serving o rest }
  | .serving _ [] => w.setTask t { task with turn := task.turn + 1, phase := .before }
  | _ => w

def step (w : Worker) : Action → Worker
  | .subscribe id triggers query =>
    if w.log.any (·.mentions id) then w
    else
      { w with
        subscriptions := w.subscriptions ++ [⟨id, triggers, query⟩],
        log := w.log ++ [.subscribed ⟨id, triggers, query⟩] }
  | .unsubscribe id =>
    { w with subscriptions := w.subscriptions.filter (·.id ≠ id), log := w.log ++ [.unsubscribed id] }
  | .step => w.begin_ [.step]
  | .invoke events => w.begin_ (events.map .event)
  | .snapshot t =>
    match w.tasks[t]? with
    | some task => w.setTask t (w.takeSnapshot task)
    | none => w
  | .serve t answer =>
    match w.tasks[t]? with
    | some task => w.serveNext t task answer
    | none => w
  | .fail t =>
    match w.tasks[t]? with
    | some task => w.setTask t { task with phase := .ended }
    | none => w

end Worker

/-! ## What is promised -/

/-- the entry is a product for the subscription, from this turn of the task -/
def Entry.sends (t turn : ℕ) (id : Uuid) : Entry → Bool
  | .delivered t' turn' sub _ => t' = t && turn' = turn && sub.id = id
  | _ => false

/-- the entry is a product for the subscription -/
def Entry.DeliversTo (id : Uuid) : Entry → Prop
  | .delivered _ _ sub _ => sub.id = id
  | _ => False

/-- how many products a turn of the task sent to the subscription -/
def sent (log : List Entry) (t turn : ℕ) (id : Uuid) : ℕ := log.countP (·.sends t turn id)

/-- subscribed before the request, and not unsubscribed since -/
def Throughout (log : List Entry) (t : ℕ) (sub : Subscription) : Prop :=
  (∃ pre post, log = pre ++ .began t :: post ∧ .subscribed sub ∈ pre) ∧ .unsubscribed sub.id ∉ log

/-- the task is through with this turn -/
def Task.Past (task : Task) (turn : ℕ) : Prop := turn < task.turn ∨ task.phase = .ended

/-- the snapshot for this turn is still to be taken -/
def Task.Ahead (task : Task) (turn : ℕ) : Prop := task.turn < turn ∨ turn = task.turn ∧ task.phase = .before

/-- a product is sent only on an occasion that the triggers ask for, only before an `Unsubscribe`, and at most once; and
a turn that is over sent one to each subscription that was there throughout and asks for it -/
structure Delivered (w : Worker) : Prop where
  matched : ∀ t turn sub product, Entry.delivered t turn sub product ∈ w.log →
    ∃ task o, w.tasks[t]? = some task ∧ task.occasions[turn]? = some o ∧ o.Fires sub.triggers = true
  timely : w.log.Pairwise fun e e' => ∀ id, e = .unsubscribed id → ¬ e'.DeliversTo id
  once : ∀ t turn id, sent w.log t turn id ≤ 1
  complete : ∀ t task turn o, w.tasks[t]? = some task → task.occasions[turn]? = some o → task.Past turn →
    ∀ sub, Throughout w.log t sub → o.Fires sub.triggers = true → sent w.log t turn sub.id = 1

/-! ## The condition -/

/-- no subscription that asks for a product is in the list of the task, and none is there for an occasion ahead -/
def NothingOwed (w : Worker) (task : Task) : Prop :=
  (∀ o rest, task.phase = .serving o rest → ∀ sub ∈ rest, o.Fires sub.triggers = false) ∧
    ∀ turn o, task.Ahead turn → task.occasions[turn]? = some o → ∀ sub ∈ w.subscriptions, o.Fires sub.triggers = false

/-- **The condition on an action.** What is unsubscribed is not still to be served by a task; a snapshot finds only
subscriptions that ask for a product on its occasion, if it would serve them; queries are answered; and a task fails
only when it is through or owes nothing. -/
def Permits (w : Worker) : Action → Prop
  | .unsubscribe id => ∀ task ∈ w.tasks, ∀ o rest, task.phase = .serving o rest →
      ∀ sub ∈ rest, sub.id = id → sub.servedOn o = false
  | .snapshot t => ∀ task ∈ w.tasks[t]?, task.phase = .before → ∀ o ∈ task.occasions[task.turn]?,
      ∀ sub ∈ w.subscriptions, sub.servedOn o = true → o.Fires sub.triggers = true
  | .serve t answer => ∀ task ∈ w.tasks[t]?, ∀ o sub rest, task.phase = .serving o (sub :: rest) →
      sub.servedOn o = true → (answer sub.query).isSome = true
  | .fail t => ∀ task ∈ w.tasks[t]?, task.phase ≠ .ended → NothingOwed w task
  | _ => True

/-! ## The log -/

section
variable {log : List Entry} {t turn : ℕ} {id : Uuid} {e : Entry}

theorem sent_append : sent (log ++ [e]) t turn id = sent log t turn id + if e.sends t turn id then 1 else 0 := by
  unfold sent
  rw [List.countP_append, List.countP_singleton]

theorem sent_append_of (h : e.sends t turn id = false) : sent (log ++ [e]) t turn id = sent log t turn id := by
  rw [sent_append, h]
  rfl

theorem throughout_append {sub : Subscription} (he : e ≠ .began t) (h : Throughout (log ++ [e]) t sub) :
    Throughout log t sub := by
  obtain ⟨⟨pre, post, hlog, hsub⟩, hun⟩ := h
  refine ⟨?_, fun hin => hun (List.mem_append_left _ hin)⟩
  rcases List.eq_nil_or_concat post with rfl | ⟨post', last, rfl⟩
  · have hlast := (List.append_inj' hlog rfl).2
    exact absurd (List.singleton_injective hlast) he
  · rw [List.concat_eq_append, ← List.cons_append, ← List.append_assoc] at hlog
    exact ⟨pre, post', (List.append_inj' hlog rfl).1, hsub⟩

theorem Throughout.subscribed {sub : Subscription} (h : Throughout log t sub) : .subscribed sub ∈ log := by
  obtain ⟨⟨pre, post, rfl, hsub⟩, -⟩ := h
  exact List.mem_append_left _ hsub

end

/-! ## The invariant -/

/-- what holds of a task: nothing was sent for turns ahead; what is left of its list is distinct, got nothing yet, and
is still subscribed and asks for a product where it will be served; who is not left got one; and turns that are over
are complete -/
structure TaskInv (subscriptions : List Subscription) (log : List Entry) (t : ℕ) (task : Task) : Prop where
  ahead : ∀ turn id, task.Ahead turn → sent log t turn id = 0
  occasion : ∀ o rest, task.phase = .serving o rest → task.occasions[task.turn]? = some o
  distinct : ∀ o rest, task.phase = .serving o rest → (rest.map Subscription.id).Nodup
  unserved : ∀ o rest, task.phase = .serving o rest → ∀ sub ∈ rest, sent log t task.turn sub.id = 0
  wanted : ∀ o rest, task.phase = .serving o rest → ∀ sub ∈ rest, sub.servedOn o = true →
    sub ∈ subscriptions ∧ o.Fires sub.triggers = true
  served : ∀ o rest, task.phase = .serving o rest → ∀ sub, Throughout log t sub → o.Fires sub.triggers = true →
    sub ∈ rest ∨ sent log t task.turn sub.id = 1
  over_ : ∀ turn o, task.occasions[turn]? = some o → task.Past turn → ∀ sub, Throughout log t sub →
    o.Fires sub.triggers = true → sent log t turn sub.id = 1

structure Inv (w : Worker) : Prop where
  live : ∀ sub, sub ∈ w.subscriptions ↔ .subscribed sub ∈ w.log ∧ .unsubscribed sub.id ∉ w.log
  distinct : (w.subscriptions.map Subscription.id).Nodup
  begun : ∀ t, .began t ∈ w.log → t < w.tasks.length
  future : ∀ t turn id, w.tasks.length ≤ t → sent w.log t turn id = 0
  tasks : ∀ t task, w.tasks[t]? = some task → TaskInv w.subscriptions w.log t task
  matched : ∀ t turn sub product, Entry.delivered t turn sub product ∈ w.log →
    ∃ task o, w.tasks[t]? = some task ∧ task.occasions[turn]? = some o ∧ o.Fires sub.triggers = true
  timely : w.log.Pairwise fun e e' => ∀ id, e = .unsubscribed id → ¬ e'.DeliversTo id
  once : ∀ t turn id, sent w.log t turn id ≤ 1

theorem Inv.delivered {w : Worker} (h : Inv w) : Delivered w :=
  ⟨h.matched, h.timely, h.once, fun t task turn o htask ho hpast sub =>
    (h.tasks t task htask).over_ turn o ho hpast sub⟩

theorem inv_idle : Inv .idle where
  live := by simp [Worker.idle]
  distinct := List.nodup_nil
  begun := by simp [Worker.idle]
  future _ _ _ _ := rfl
  tasks := by simp [Worker.idle]
  matched := by simp [Worker.idle]
  timely := List.Pairwise.nil
  once _ _ _ := Nat.zero_le 1

/-- a task with a list to serve, by what holds of this list -/
theorem TaskInv.of_serving {subscriptions : List Subscription} {log : List Entry} {t turn : ℕ}
    {occasions : List Occasion} {o : Occasion} {rest : List Subscription}
    (hahead : ∀ later id, turn < later → sent log t later id = 0) (hoccasion : occasions[turn]? = some o)
    (hdistinct : (rest.map Subscription.id).Nodup) (hunserved : ∀ sub ∈ rest, sent log t turn sub.id = 0)
    (hwanted : ∀ sub ∈ rest, sub.servedOn o = true → sub ∈ subscriptions ∧ o.Fires sub.triggers = true)
    (hserved : ∀ sub, Throughout log t sub → o.Fires sub.triggers = true →
      sub ∈ rest ∨ sent log t turn sub.id = 1)
    (hpast : ∀ earlier o', occasions[earlier]? = some o' → earlier < turn → ∀ sub, Throughout log t sub →
      o'.Fires sub.triggers = true → sent log t earlier sub.id = 1) :
    TaskInv subscriptions log t ⟨occasions, turn, .serving o rest⟩ := by
  have hsame : ∀ o' rest', Phase.serving o rest = .serving o' rest' → o = o' ∧ rest = rest' := fun _ _ heq =>
    Phase.serving.inj heq
  refine ⟨fun later id hahead' => ?_, fun o' rest' heq => ?_, fun o' rest' heq => ?_, fun o' rest' heq => ?_,
    fun o' rest' heq => ?_, fun o' rest' heq => ?_, fun earlier o' ho' hover => ?_⟩
  · rcases hahead' with hlt | ⟨-, hbefore⟩
    · exact hahead later id hlt
    · cases hbefore
  · obtain ⟨rfl, rfl⟩ := hsame o' rest' heq
    exact hoccasion
  · obtain ⟨rfl, rfl⟩ := hsame o' rest' heq
    exact hdistinct
  · obtain ⟨rfl, rfl⟩ := hsame o' rest' heq
    exact hunserved
  · obtain ⟨rfl, rfl⟩ := hsame o' rest' heq
    exact hwanted
  · obtain ⟨rfl, rfl⟩ := hsame o' rest' heq
    exact hserved
  · rcases hover with hlt | hended
    · exact hpast earlier o' ho' hlt
    · cases hended

/-- a task that does not move, where its turns got nothing more and what it will serve stays -/
theorem TaskInv.frame {subscriptions subscriptions' : List Subscription} {log log' : List Entry} {t : ℕ} {task : Task}
    (h : TaskInv subscriptions log t task) (hsent : ∀ turn id, sent log' t turn id = sent log t turn id)
    (hthroughout : ∀ sub, Throughout log' t sub → Throughout log t sub)
    (hstays : ∀ o rest, task.phase = .serving o rest → ∀ sub ∈ rest, sub.servedOn o = true →
      sub ∈ subscriptions → sub ∈ subscriptions') : TaskInv subscriptions' log' t task where
  ahead turn id hahead := (hsent turn id).trans (h.ahead turn id hahead)
  occasion := h.occasion
  distinct := h.distinct
  unserved o rest hphase sub hsub := (hsent _ _).trans (h.unserved o rest hphase sub hsub)
  wanted o rest hphase sub hsub hserved := by
    obtain ⟨hin, hfires⟩ := h.wanted o rest hphase sub hsub hserved
    exact ⟨hstays o rest hphase sub hsub hserved hin, hfires⟩
  served o rest hphase sub hsub hfires := by
    rw [hsent]
    exact h.served o rest hphase sub (hthroughout sub hsub) hfires
  over_ turn o ho hpast sub hsub hfires :=
    (hsent _ _).trans (h.over_ turn o ho hpast sub (hthroughout sub hsub) hfires)

/-- an entry that no task wrote -/
theorem Inv.append {w : Worker} (h : Inv w) {e : Entry} {subscriptions : List Subscription}
    (hsends : ∀ t turn id, e.sends t turn id = false) (hbegan : ∀ t, e ≠ .began t)
    (hdelivers : ∀ id, ¬ e.DeliversTo id)
    (hlive : ∀ sub, sub ∈ subscriptions ↔ .subscribed sub ∈ w.log ++ [e] ∧ .unsubscribed sub.id ∉ w.log ++ [e])
    (hdistinct : (subscriptions.map Subscription.id).Nodup)
    (hstays : ∀ task ∈ w.tasks, ∀ o rest, task.phase = .serving o rest → ∀ sub ∈ rest, sub.servedOn o = true →
      sub ∈ w.subscriptions → sub ∈ subscriptions) :
    Inv { w with subscriptions, log := w.log ++ [e] } where
  live := hlive
  distinct := hdistinct
  begun t hin := by
    rcases List.mem_append.mp hin with hin | hin
    · exact h.begun t hin
    · exact absurd (List.mem_singleton.mp hin).symm (hbegan t)
  future t turn id ht := (sent_append_of (hsends t turn id)).trans (h.future t turn id ht)
  tasks t task htask := (h.tasks t task htask).frame (fun turn id => sent_append_of (hsends t turn id))
    (fun sub => throughout_append (hbegan t)) (hstays task (List.mem_of_getElem? htask))
  matched t turn sub product hin := by
    rcases List.mem_append.mp hin with hin | hin
    · exact h.matched t turn sub product hin
    · obtain rfl := List.mem_singleton.mp hin
      exact absurd rfl (hdelivers sub.id)
  timely := by
    refine List.pairwise_append.mpr ⟨h.timely, List.pairwise_singleton _ _, fun e₁ _ e₂ he₂ id _ => ?_⟩
    rw [List.mem_singleton.mp he₂]
    exact hdelivers id
  once t turn id := (sent_append_of (hsends t turn id)).trans_le (h.once t turn id)

theorem inv_subscribe {w : Worker} (h : Inv w) (id : Uuid) (triggers : List Trigger) (query : Query) :
    Inv (w.step (.subscribe id triggers query)) := by
  simp only [Worker.step]
  split_ifs with hknown
  · exact h
  · have hfresh : ∀ e ∈ w.log, e.mentions id = false := by simpa using hknown
    have hnew : ∀ sub ∈ w.subscriptions, sub.id ≠ id := by
      intro sub hsub heq
      have hmention := hfresh _ ((h.live sub).mp hsub).1
      simp [Entry.mentions, heq] at hmention
    refine h.append (fun _ _ _ => rfl) (fun _ => by simp) (fun _ hto => hto) (fun sub => ?_) ?_ ?_
    · have hnot : Entry.unsubscribed id ∉ w.log := fun hin => by simpa [Entry.mentions] using hfresh _ hin
      simp only [List.mem_append, List.mem_singleton, Entry.subscribed.injEq, reduceCtorEq, or_false]
      constructor
      · intro hsub
        rcases hsub with hsub | rfl
        · obtain ⟨hin, hun⟩ := (h.live sub).mp hsub
          exact ⟨Or.inl hin, hun⟩
        · exact ⟨Or.inr rfl, hnot⟩
      · rintro ⟨hin, hun⟩
        rcases hin with hin | rfl
        · exact Or.inl ((h.live sub).mpr ⟨hin, hun⟩)
        · exact Or.inr rfl
    · rw [List.map_append, List.nodup_append]
      refine ⟨h.distinct, List.nodup_singleton _, fun a ha b hb => ?_⟩
      obtain ⟨sub, hsub, rfl⟩ := List.mem_map.mp ha
      rw [List.mem_singleton.mp hb]
      exact hnew sub hsub
    · exact fun _ _ _ _ _ _ _ _ hin => List.mem_append_left _ hin

theorem inv_unsubscribe {w : Worker} (h : Inv w) (id : Uuid) (hok : Permits w (.unsubscribe id)) :
    Inv (w.step (.unsubscribe id)) := by
  refine h.append (fun _ _ _ => rfl) (fun _ => by simp) (fun _ hto => hto) (fun sub => ?_) ?_ ?_
  · simp only [List.mem_filter, List.mem_append, List.mem_singleton, reduceCtorEq, or_false, h.live sub,
      Entry.unsubscribed.injEq, decide_eq_true_eq]
    tauto
  · exact h.distinct.sublist ((List.filter_sublist).map _)
  · intro task htask o rest hphase sub hsub hserved hin
    refine List.mem_filter.mpr ⟨hin, decide_eq_true fun heq => ?_⟩
    have hnot := hok task htask o rest hphase sub hsub heq
    rw [hserved] at hnot
    cases hnot

/-- a task that moves keeps its occasions -/
theorem setTask_occasion {w : Worker} {t : ℕ} {task task' : Task} (htask : w.tasks[t]? = some task)
    (hoccasions : task'.occasions = task.occasions) {s turn : ℕ} {P : Occasion → Prop}
    (h : ∃ other o, w.tasks[s]? = some other ∧ other.occasions[turn]? = some o ∧ P o) :
    ∃ other o, (w.setTask t task').tasks[s]? = some other ∧ other.occasions[turn]? = some o ∧ P o := by
  obtain ⟨other, o, hother, ho, hP⟩ := h
  by_cases heq : t = s
  · subst heq
    obtain rfl := Option.some.inj (htask.symm.trans hother)
    have hlt : t < w.tasks.length := (List.getElem?_eq_some_iff.mp htask).1
    exact ⟨task', o, by simp [Worker.setTask, hlt], hoccasions ▸ ho, hP⟩
  · exact ⟨other, o, by simpa [Worker.setTask, List.getElem?_set, heq] using hother, ho, hP⟩

theorem tasks_setTask {w : Worker} {t s : ℕ} {task' other : Task} (h : (w.setTask t task').tasks[s]? = some other) :
    (s = t ∧ other = task') ∨ (s ≠ t ∧ w.tasks[s]? = some other) := by
  simp only [Worker.setTask, List.getElem?_set] at h
  split_ifs at h with heq hlt
  · exact Or.inl ⟨heq.symm, (Option.some.inj h).symm⟩
  · exact Or.inr ⟨Ne.symm heq, h⟩

/-- one task moves, and nothing is sent -/
theorem Inv.setTask {w : Worker} (h : Inv w) {t : ℕ} {task task' : Task} (htask : w.tasks[t]? = some task)
    (hoccasions : task'.occasions = task.occasions) (htask' : TaskInv w.subscriptions w.log t task') :
    Inv (w.setTask t task') where
  live := h.live
  distinct := h.distinct
  begun s hs := by simpa [Worker.setTask] using h.begun s hs
  future s turn id hs := h.future s turn id (by simpa [Worker.setTask] using hs)
  tasks s other hother := by
    rcases tasks_setTask hother with ⟨rfl, rfl⟩ | ⟨-, hother⟩
    · exact htask'
    · exact h.tasks s other hother
  matched s turn sub product hin := setTask_occasion htask hoccasions (h.matched s turn sub product hin)
  timely := h.timely
  once := h.once

theorem inv_begin {w : Worker} (h : Inv w) (occasions : List Occasion) : Inv (w.begin_ occasions) where
  live sub := by simpa [Worker.begin_] using h.live sub
  distinct := h.distinct
  begun t hin := by
    simp only [Worker.begin_, List.length_append, List.length_singleton, List.mem_append, List.mem_singleton,
      Entry.began.injEq] at hin ⊢
    rcases hin with hin | rfl
    · exact Nat.lt_succ_of_lt (h.begun t hin)
    · exact Nat.lt_succ_self _
  future t turn id ht := by
    simp only [Worker.begin_, List.length_append, List.length_singleton] at ht
    exact (sent_append_of rfl).trans (h.future t turn id (Nat.le_of_succ_le ht))
  tasks t task htask := by
    rcases Nat.lt_trichotomy t w.tasks.length with hlt | heq | hgt
    · rw [Worker.begin_, List.getElem?_append_left hlt] at htask
      refine (h.tasks t task htask).frame (fun _ _ => sent_append_of rfl) (fun sub => throughout_append ?_)
        fun _ _ _ _ _ _ hin => hin
      exact fun heq => Nat.ne_of_lt hlt (Entry.began.inj heq).symm
    · subst heq
      simp only [Worker.begin_, List.getElem?_concat_length, Option.some.injEq] at htask
      subst htask
      have hnone : ∀ turn id, sent (w.log ++ [.began w.tasks.length]) w.tasks.length turn id = 0 :=
        fun turn id => (sent_append_of rfl).trans (h.future _ turn id (Nat.le_refl _))
      have hpast : ∀ turn, ¬ Task.Past ⟨occasions, 0, .before⟩ turn := by
        intro turn hpast
        rcases hpast with hlt | hended
        · exact Nat.not_lt_zero turn hlt
        · cases hended
      exact ⟨fun turn id _ => hnone turn id, nofun, nofun, nofun, nofun, nofun,
        fun turn o _ hover => absurd hover (hpast turn)⟩
    · have hlt := (List.getElem?_eq_some_iff.mp htask).1
      simp only [Worker.begin_, List.length_append, List.length_singleton] at hlt
      omega
  matched t turn sub product hin := by
    have hin' : Entry.delivered t turn sub product ∈ w.log := by simpa [Worker.begin_] using hin
    obtain ⟨task, o, htask, ho, hfires⟩ := h.matched t turn sub product hin'
    exact ⟨task, o, (List.getElem?_append_left (List.getElem?_eq_some_iff.mp htask).1).trans htask, ho, hfires⟩
  timely := by
    refine List.pairwise_append.mpr ⟨h.timely, List.pairwise_singleton _ _, fun _ _ e₂ he₂ _ _ => ?_⟩
    rw [List.mem_singleton.mp he₂]
    exact fun hto => hto
  once t turn id := (sent_append_of rfl).trans_le (h.once t turn id)

/-- a task that is through, or ends where it owes nothing -/
theorem TaskInv.end_ {w : Worker} (hw : Inv w) {t : ℕ} {task : Task} (h : TaskInv w.subscriptions w.log t task)
    (hnothing : NothingOwed w task) : TaskInv w.subscriptions w.log t { task with phase := .ended } := by
  refine ⟨fun turn id hahead => h.ahead turn id ?_, nofun, nofun, nofun, nofun, nofun,
    fun turn o ho _ sub hsub hfires => ?_⟩
  · rcases hahead with hlt | ⟨-, hphase⟩
    · exact Or.inl hlt
    · cases hphase
  · have hlive : sub ∈ w.subscriptions := (hw.live sub).mpr ⟨hsub.subscribed, hsub.2⟩
    by_cases hover : task.Past turn
    · exact h.over_ turn o ho hover sub hsub hfires
    · by_cases hahead : task.Ahead turn
      · have hno := hnothing.2 turn o hahead ho sub hlive
        rw [hfires] at hno
        cases hno
      · -- the turn whose list is being served
        unfold Task.Past at hover
        unfold Task.Ahead at hahead
        push Not at hover hahead
        obtain rfl : turn = task.turn := Nat.le_antisymm hahead.1 hover.1
        cases hphase : task.phase with
        | before => exact absurd hphase (hahead.2 rfl)
        | ended => exact absurd hphase hover.2
        | serving o' rest =>
          obtain rfl := Option.some.inj ((h.occasion o' rest hphase).symm.trans ho)
          rcases h.served o' rest hphase sub hsub hfires with hrest | hone
          · have hno := hnothing.1 o' rest hphase sub hrest
            rw [hfires] at hno
            cases hno
          · exact hone

theorem inv_fail {w : Worker} (h : Inv w) (t : ℕ) (hok : Permits w (.fail t)) : Inv (w.step (.fail t)) := by
  simp only [Worker.step]
  cases htask : w.tasks[t]? with
  | none => exact h
  | some task =>
    refine h.setTask htask rfl ?_
    by_cases hended : task.phase = .ended
    · have heq : ({ task with phase := .ended } : Task) = task := by
        cases task
        simp_all
      rw [heq]
      exact h.tasks t task htask
    · exact (h.tasks t task htask).end_ h (hok task htask hended)

theorem takeSnapshot_inv {w : Worker} (h : Inv w) {t : ℕ} {task : Task} (hinv : TaskInv w.subscriptions w.log t task)
    (hok : task.phase = .before → ∀ o ∈ task.occasions[task.turn]?, ∀ sub ∈ w.subscriptions,
      sub.servedOn o = true → o.Fires sub.triggers = true) :
    TaskInv w.subscriptions w.log t (w.takeSnapshot task) := by
  unfold Worker.takeSnapshot
  split
  · rename_i hbefore
    split
    · rename_i o ho
      refine .of_serving (fun later id hlt => hinv.ahead later id (Or.inl hlt)) ho h.distinct ?_ ?_ ?_ ?_
      · exact fun sub _ => hinv.ahead task.turn sub.id (Or.inr ⟨rfl, hbefore⟩)
      · exact fun sub hsub hserved => ⟨hsub, hok hbefore o ho sub hsub hserved⟩
      · exact fun sub hsub _ => Or.inl ((h.live sub).mpr ⟨hsub.subscribed, hsub.2⟩)
      · exact fun earlier o' ho' hlt => hinv.over_ earlier o' ho' (Or.inl hlt)
    · rename_i hnone
      refine hinv.end_ h ⟨fun o rest hphase => ?_, fun turn o hahead ho => ?_⟩
      · rw [hbefore] at hphase
        cases hphase
      · -- no occasion is ahead
        have hlen := List.getElem?_eq_none_iff.mp hnone
        have hlt := (List.getElem?_eq_some_iff.mp ho).1
        unfold Task.Ahead at hahead
        omega
  · exact hinv

theorem takeSnapshot_occasions (w : Worker) (task : Task) : (w.takeSnapshot task).occasions = task.occasions := by
  unfold Worker.takeSnapshot
  split
  · split <;> rfl
  · rfl

theorem inv_snapshot {w : Worker} (h : Inv w) (t : ℕ) (hok : Permits w (.snapshot t)) :
    Inv (w.step (.snapshot t)) := by
  simp only [Worker.step]
  cases htask : w.tasks[t]? with
  | none => exact h
  | some task =>
    exact h.setTask htask (takeSnapshot_occasions w task)
      (takeSnapshot_inv h (h.tasks t task htask) (hok task htask))

/-- the list goes on without a subscription that is not served -/
theorem TaskInv.skip {subscriptions : List Subscription} {log : List Entry} {t : ℕ} {task : Task} {o : Occasion}
    {sub : Subscription} {rest : List Subscription} (h : TaskInv subscriptions log t task)
    (hphase : task.phase = .serving o (sub :: rest)) (hskip : sub.servedOn o = false) :
    TaskInv subscriptions log t { task with phase := .serving o rest } := by
  refine .of_serving (fun later id hlt => h.ahead later id (Or.inl hlt)) (h.occasion _ _ hphase)
    (List.nodup_cons.mp (h.distinct _ _ hphase)).2 ?_ ?_ ?_ ?_
  · exact fun sub' hsub' => h.unserved _ _ hphase sub' (List.mem_cons_of_mem _ hsub')
  · exact fun sub' hsub' => h.wanted _ _ hphase sub' (List.mem_cons_of_mem _ hsub')
  · intro sub' hsub' hfires
    rcases h.served _ _ hphase sub' hsub' hfires with hin | hone
    · rcases List.mem_cons.mp hin with rfl | hin
      · rw [servedOn_of_fires hfires] at hskip
        cases hskip
      · exact Or.inl hin
    · exact Or.inr hone
  · exact fun earlier o' ho' hlt => h.over_ earlier o' ho' (Or.inl hlt)

/-- the list is through -/
theorem TaskInv.next {subscriptions : List Subscription} {log : List Entry} {t : ℕ} {task : Task} {o : Occasion}
    (h : TaskInv subscriptions log t task) (hphase : task.phase = .serving o []) :
    TaskInv subscriptions log t { task with turn := task.turn + 1, phase := .before } := by
  refine ⟨fun turn id hahead => h.ahead turn id (Or.inl ?_), nofun, nofun, nofun, nofun, nofun,
    fun turn o' ho' hpast sub hsub hfires => ?_⟩
  · rcases hahead with hlt | ⟨rfl, -⟩
    · exact Nat.lt_of_succ_lt hlt
    · exact Nat.lt_succ_self _
  · rcases hpast with hlt | hended
    · rcases Nat.lt_succ_iff_lt_or_eq.mp hlt with hlt | rfl
      · exact h.over_ turn o' ho' (Or.inl hlt) sub hsub hfires
      · obtain rfl := Option.some.inj ((h.occasion o [] hphase).symm.trans ho')
        rcases h.served o [] hphase sub hsub hfires with hin | hone
        · cases hin
        · exact hone
    · cases hended

/-- **One delivery.** -/
theorem Inv.deliver {w : Worker} (h : Inv w) {t : ℕ} {task : Task} {o : Occasion} {sub : Subscription}
    {rest : List Subscription} (htask : w.tasks[t]? = some task) (hphase : task.phase = .serving o (sub :: rest))
    (hserved : sub.servedOn o = true) (product : QueryProduct) :
    Inv { w.setTask t { task with phase := .serving o rest } with
      log := w.log ++ [.delivered t task.turn sub product] } := by
  have hinv := h.tasks t task htask
  obtain ⟨hlive, hfires⟩ := hinv.wanted o _ hphase sub List.mem_cons_self hserved
  have hzero := hinv.unserved o _ hphase sub List.mem_cons_self
  obtain ⟨hnot, hdistinct⟩ := List.nodup_cons.mp (hinv.distinct o _ hphase)
  have ho := hinv.occasion o _ hphase
  have hlt : t < w.tasks.length := (List.getElem?_eq_some_iff.mp htask).1
  have hother : ∀ s turn id, ¬ (s = t ∧ turn = task.turn ∧ id = sub.id) →
      sent (w.log ++ [.delivered t task.turn sub product]) s turn id = sent w.log s turn id := by
    intro s turn id hne
    refine sent_append_of ?_
    simp only [Entry.sends, Bool.and_eq_false_iff, decide_eq_false_iff_not]
    by_contra hall
    push Not at hall
    exact hne ⟨hall.1.1.symm, hall.1.2.symm, hall.2.symm⟩
  have hone : sent (w.log ++ [.delivered t task.turn sub product]) t task.turn sub.id = 1 := by
    rw [sent_append, hzero]
    simp [Entry.sends]
  have hthroughout : ∀ s sub', Throughout (w.log ++ [.delivered t task.turn sub product]) s sub' →
      Throughout w.log s sub' := fun s sub' => throughout_append (by simp)
  constructor
  · intro sub'
    simpa [Worker.setTask] using h.live sub'
  · exact h.distinct
  · intro s hs
    simpa [Worker.setTask] using h.begun s (by simpa using hs)
  · intro s turn id hs
    have hlen : w.tasks.length ≤ s := by simpa [Worker.setTask] using hs
    rw [hother s turn id fun heq => absurd (heq.1 ▸ hlen) (Nat.not_le_of_lt hlt)]
    exact h.future s turn id hlen
  · intro s other hs
    rcases tasks_setTask hs with ⟨rfl, rfl⟩ | ⟨hne, hs⟩
    · have hlater : ∀ sub' ∈ rest, sub'.id ≠ sub.id := fun sub' hsub' heq =>
        hnot (heq ▸ List.mem_map_of_mem hsub')
      refine .of_serving (fun later id hlt => ?_) ho hdistinct (fun sub' hsub' => ?_) ?_
        (fun sub' hsub' hfires' => ?_) fun earlier o' ho' hlt sub' hsub' hfires' => ?_
      · rw [hother s later id fun heq => absurd heq.2.1 (Nat.ne_of_gt hlt)]
        exact hinv.ahead later id (Or.inl hlt)
      · rw [hother s task.turn sub'.id fun heq => hlater sub' hsub' heq.2.2]
        exact hinv.unserved _ _ hphase sub' (List.mem_cons_of_mem _ hsub')
      · exact fun sub' hsub' => hinv.wanted _ _ hphase sub' (List.mem_cons_of_mem _ hsub')
      · rcases hinv.served _ _ hphase sub' (hthroughout s sub' hsub') hfires' with hin | hgot
        · rcases List.mem_cons.mp hin with rfl | hin
          · exact Or.inr hone
          · exact Or.inl hin
        · have hne : sub'.id ≠ sub.id := by
            intro heq
            rw [heq, hzero] at hgot
            cases hgot
          exact Or.inr ((hother s task.turn sub'.id fun heq => hne heq.2.2).trans hgot)
      · rw [hother s earlier sub'.id fun heq => absurd heq.2.1 (Nat.ne_of_lt hlt)]
        exact hinv.over_ earlier o' ho' (Or.inl hlt) sub' (hthroughout s sub' hsub') hfires'
    · exact (h.tasks s other hs).frame (fun turn id => hother s turn id fun heq => hne heq.1) (hthroughout s)
        fun _ _ _ _ _ _ hin => hin
  · intro s turn sub' product' hin
    rcases List.mem_append.mp hin with hin | hin
    · exact @setTask_occasion w t task { task with phase := .serving o rest } htask rfl s turn _
        (h.matched s turn sub' product' hin)
    · obtain ⟨rfl, rfl, rfl, -⟩ := Entry.delivered.inj (List.mem_singleton.mp hin)
      exact @setTask_occasion w s task { task with phase := .serving o rest } htask rfl s task.turn
        (fun o => o.Fires sub'.triggers = true) ⟨task, o, htask, ho, hfires⟩
  · refine List.pairwise_append.mpr ⟨h.timely, List.pairwise_singleton _ _, fun e₁ he₁ e₂ he₂ id heq hto => ?_⟩
    rw [List.mem_singleton.mp he₂] at hto
    have hid : sub.id = id := hto
    exact ((h.live sub).mp hlive).2 (hid ▸ heq ▸ he₁)
  · intro s turn id
    by_cases heq : s = t ∧ turn = task.turn ∧ id = sub.id
    · obtain ⟨rfl, rfl, rfl⟩ := heq
      exact hone.le
    · exact (hother s turn id heq).trans_le (h.once s turn id)

theorem inv_serve {w : Worker} (h : Inv w) (t : ℕ) (answer : Query → Option QueryProduct)
    (hok : Permits w (.serve t answer)) : Inv (w.step (.serve t answer)) := by
  simp only [Worker.step]
  cases htask : w.tasks[t]? with
  | none => exact h
  | some task =>
    have hinv := h.tasks t task htask
    simp only [Worker.serveNext]
    cases hphase : task.phase with
    | before => exact h
    | ended => exact h
    | serving o list =>
      cases list with
      | nil => exact h.setTask htask rfl (hinv.next hphase)
      | cons sub rest =>
        by_cases hserved : sub.servedOn o = true
        · obtain ⟨product, hproduct⟩ := Option.isSome_iff_exists.mp (hok task htask o sub rest hphase hserved)
          simp only [hserved, if_true, hproduct]
          exact h.deliver htask hphase hserved product
        · simp only [hserved, Bool.false_eq_true, if_false]
          exact h.setTask htask rfl (hinv.skip hphase (by simpa using hserved))

/-- **One action.** -/
theorem inv_step {w : Worker} (h : Inv w) (a : Action) (hok : Permits w a) : Inv (w.step a) := by
  cases a with
  | subscribe id triggers query => exact inv_subscribe h id triggers query
  | unsubscribe id => exact inv_unsubscribe h id hok
  | step => exact inv_begin h _
  | invoke events => exact inv_begin h _
  | snapshot t => exact inv_snapshot h t hok
  | serve t answer => exact inv_serve h t answer hok
  | fail t => exact inv_fail h t hok

/-- **Subscriptions are served.** In every state that a run of subscriptions, steps and events reaches, with any
number of requests at once and any interleaving, every subscription has got what it was promised and nothing else, if
every action of the run meets its condition. -/
theorem subscriptions_delivered (actions : List Action) (h : Core.Along Worker.step Permits .idle actions) (n : ℕ) :
    Delivered (Core.run Worker.step .idle (actions.take n)) := by
  rw [← List.take_append_drop n actions] at h
  have hinv : Inv (Core.run Worker.step .idle (actions.take n)) :=
    @Core.run_inv _ _ Worker.step Permits Inv (fun _ a hw ha => inv_step hw a ha) _ _ inv_idle h.take
  exact hinv.delivered

/-! ## A subscription to steps -/

def everything : Query := ⟨.addressed, .var, [], [.all], .ignore, ⟨none⟩⟩

def toSteps : Subscription := ⟨.v4 0, [.stepEvent], everything⟩

/-- a worker with the subscription handles one request -/
def subscribedThen (request : Action) : List Action :=
  [.subscribe (.v4 0) [.stepEvent] everything, request, .snapshot 0, .serve 0 fun _ => some .empty]

theorem any_event_delivers : ¬ ∀ actions, Delivered (Core.run Worker.step .idle actions) := by
  intro h
  have hlog : (Core.run Worker.step .idle (subscribedThen (.invoke ["boom"]))).log =
      [.subscribed toSteps, .began 0, .delivered 0 0 toSteps .empty] := rfl
  have hin : Entry.delivered 0 0 toSteps .empty ∈
      (Core.run Worker.step .idle (subscribedThen (.invoke ["boom"]))).log := by simp [hlog]
  obtain ⟨task, o, htask, ho, hfires⟩ := (h _).matched 0 0 toSteps .empty hin
  obtain rfl := Option.some.inj htask
  obtain rfl := Option.some.inj ho
  cases hfires

theorem subscriptions_delivered_step :
    Delivered (Core.run Worker.step .idle ((subscribedThen .step).take 4)) := by
  refine subscriptions_delivered (subscribedThen .step) ⟨trivial, trivial, ?_, ?_, trivial⟩ 4
  · intro task htask _ o ho sub _ hserved
    obtain rfl := Option.some.inj htask
    obtain rfl := Option.some.inj ho
    exact hserved
  · intro task _ o sub rest _ _
    rfl

end BigWorlds.Subscriptions
