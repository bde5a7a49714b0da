/-
The main loop of a worker (`worker/mod.rs`): five input streams, one `select!` branch each, one table of seen calls.

A branch looks the identifier of the signal up in `seen_calls` and either answers `AlreadyProcessedSignal` or runs the
request handler:
- `onLocal`: only here are calls entered in the table, and only here is `Delivery` read. A seen call is answered with
  the error when its delivery is `Limited(times)` and the stored count has reached `times`. The count is stored as 1
  and no branch raises it.
- the other four branches (`unlessSeen`) reject every seen call, whatever its delivery, and enter nothing. The two
  multi-response branches build the answer with `sender.send(..)` on a channel whose `send` is a future, and do not
  await it: the answer is never sent (`Outcome.dropped`).
The two local branches register the worker's own hop before they run the handler; the behavior and network branches
do not.

- `delivery_limit_iff`: when exactly signals of one `Limited(n)` call are handled at most n times and answered
  otherwise, for any arrival order over the five streams and any other signals in between.
- `limited_call_handled_thrice`: three local signals of one `Limited(2)` call are all handled.

Signals on the network stream are taken as decoded. One arrival is one lookup in the table: the lock is held from the
lookup to the insertion.
-/
import Mathlib.Data.Finmap
import BigWorlds.Error

namespace BigWorlds.Inbox

/-! ## Model -/

inductive Stream where
  | localStreams
  | localStreamsMulti
  | localBehaviorStream
  | localBehaviorStreamMulti
  | netStream
deriving DecidableEq, Repr

def Stream.multi : Stream → Bool
  | .localStreamsMulti | .localBehaviorStreamMulti => true
  | _ => false

/-- `seen_calls`: count and time stamp of each call entered -/
abbrev SeenCalls := Finmap fun _ : Uuid => UInt8 × UInt32

inductive Outcome where
  /-- the request handler runs, with this context -/
  | handled (ctx : Context)
  /-- the caller gets the error -/
  | rejected (e : Error)
  /-- nothing is handled and nothing is sent -/
  | dropped
deriving DecidableEq, Repr

def Outcome.isHandled : Outcome → Bool
  | .handled _ => true
  | _ => false

def onLocal (seen : SeenCalls) (ctx handlerCtx : Context) : SeenCalls × Outcome :=
  match seen.lookup ctx.id with
  | some (count, _) =>
    match ctx.delivery with
    | .limited times =>
      if count ≥ times then (seen, .rejected (.alreadyProcessedSignal ctx.id)) else (seen, .handled handlerCtx)
    | .unlimited => (seen, .handled handlerCtx)
  | none => (seen.insert ctx.id (1, 0), .handled handlerCtx)

/-- the check of the four branches that enter nothing: `onSeen` when the table has the call -/
def unlessSeen (onSeen : Outcome) (seen : SeenCalls) (ctx handlerCtx : Context) : SeenCalls × Outcome :=
  if ctx.id ∈ seen then (seen, onSeen) else (seen, .handled handlerCtx)

def onLocalMulti (seen : SeenCalls) (ctx handlerCtx : Context) : SeenCalls × Outcome :=
  unlessSeen .dropped seen ctx handlerCtx

def onBehavior (seen : SeenCalls) (ctx handlerCtx : Context) : SeenCalls × Outcome :=
  unlessSeen (.rejected (.alreadyProcessedSignal ctx.id)) seen ctx handlerCtx

def onBehaviorMulti (seen : SeenCalls) (ctx handlerCtx : Context) : SeenCalls × Outcome :=
  unlessSeen .dropped seen ctx handlerCtx

def onNet (seen : SeenCalls) (ctx handlerCtx : Context) : SeenCalls × Outcome :=
  unlessSeen (.rejected (.alreadyProcessedSignal ctx.id)) seen ctx handlerCtx

/-- one round of the loop of worker `id` -/
def receive (id : WorkerId) (now : UInt64) (seen : SeenCalls) (source : Stream) (ctx : Context) :
    SeenCalls × Outcome :=
  match source with
  | .localStreams => onLocal seen ctx (ctx.registerHop now (.worker id))
  | .localStreamsMulti => onLocalMulti seen ctx (ctx.registerHop now (.worker id))
  | .localBehaviorStream => onBehavior seen ctx ctx
  | .localBehaviorStreamMulti => onBehaviorMulti seen ctx ctx
  | .netStream => onNet seen ctx ctx

structure Arrival where
  source : Stream
  ctx : Context
  now : UInt64
deriving DecidableEq, Repr

/-- the loop: every arrival with what became of it -/
def process (id : WorkerId) : SeenCalls → List Arrival → List (Arrival × Outcome)
  | _, [] => []
  | seen, a :: as =>
    let r := receive id a.now seen a.source a.ctx
    (a, r.2) :: process id r.1 as

/-- whether the branch registers the worker's own hop -/
def Stream.registers : Stream → Bool
  | .localStreams | .localStreamsMulti => true
  | _ => false

/-- the context that the request handler gets -/
theorem receive_handled {id : WorkerId} {now : UInt64} {seen : SeenCalls} {source : Stream} {ctx ctx' : Context}
    (h : (receive id now seen source ctx).2 = .handled ctx') :
    ctx' = if source.registers then ctx.registerHop now (.worker id) else ctx := by
  cases source with
  | localStreams =>
    simp only [receive, onLocal] at h
    split at h
    · split at h
      · split_ifs at h
        exact (Outcome.handled.inj h).symm
      · exact (Outcome.handled.inj h).symm
    · exact (Outcome.handled.inj h).symm
  | _ =>
    simp only [receive, onLocalMulti, onBehavior, onBehaviorMulti, onNet, unlessSeen] at h
    split_ifs at h
    exact (Outcome.handled.inj h).symm

/-! ## What one round does to the entry of a call -/

theorem receive_other (id : WorkerId) (now : UInt64) (seen : SeenCalls) (source : Stream) {ctx : Context} {i : Uuid}
    (h : ctx.id ≠ i) : (receive id now seen source ctx).1.lookup i = seen.lookup i := by
  cases source <;>
    simp only [receive, onLocal, onLocalMulti, onBehavior, onBehaviorMulti, onNet, unlessSeen] <;>
    (repeat' split) <;> first
      | rfl
      | exact Finmap.lookup_insert_of_ne _ (Ne.symm h)

/-- a call that is not in the table is handled on every stream -/
theorem receive_fresh (id : WorkerId) (now : UInt64) {seen : SeenCalls} (source : Stream) {ctx : Context}
    (h : seen.lookup ctx.id = none) :
    (receive id now seen source ctx).2.isHandled = true ∧
      (receive id now seen source ctx).1.lookup ctx.id =
        if source = .localStreams then some (1, 0) else none := by
  have hm : ctx.id ∉ seen := Finmap.lookup_eq_none.mp h
  cases source <;>
    simp [receive, onLocal, onLocalMulti, onBehavior, onBehaviorMulti, onNet, unlessSeen, h, hm, Outcome.isHandled]

/-- a call that is not handled is in the table -/
theorem mem_of_not_handled {id : WorkerId} {now : UInt64} {seen : SeenCalls} {source : Stream} {ctx : Context}
    (h : (receive id now seen source ctx).2.isHandled = false) : ctx.id ∈ seen := by
  by_contra hm
  have hh := (receive_fresh id now source (Finmap.lookup_eq_none.mpr hm)).1
  exact absurd (h.symm.trans hh) (by simp)

/-- whether a signal with this identifier and delivery gets through to the request handler -/
def passes (seen : SeenCalls) (source : Stream) (i : Uuid) (delivery : Delivery) : Bool :=
  match source, seen.lookup i, delivery with
  | .localStreams, some (count, _), .limited times => !decide (count ≥ times)
  | .localStreams, _, _ => true
  | _, entry, _ => entry.isNone

theorem receive_isHandled (id : WorkerId) (now : UInt64) (seen : SeenCalls) (source : Stream) (ctx : Context) :
    (receive id now seen source ctx).2.isHandled = passes seen source ctx.id ctx.delivery := by
  cases source with
  | localStreams =>
    simp only [receive, onLocal, passes]
    cases seen.lookup ctx.id with
    | none => rfl
    | some v =>
      cases ctx.delivery with
      | unlimited => rfl
      | limited times =>
        simp only
        split_ifs with h <;> simp [Outcome.isHandled, h]
  | _ =>
    simp only [receive, onLocalMulti, onBehavior, onBehaviorMulti, onNet, unlessSeen, passes,
      ← Finmap.lookup_isSome]
    cases seen.lookup ctx.id <;> rfl

/-- a call in the table stays there as it is -/
theorem receive_present (id : WorkerId) (now : UInt64) {seen : SeenCalls} (source : Stream) {ctx : Context}
    (h : ctx.id ∈ seen) : (receive id now seen source ctx).1 = seen := by
  obtain ⟨v, hv⟩ := Option.isSome_iff_exists.mp (Finmap.lookup_isSome.mpr h)
  cases source with
  | localStreams =>
    simp only [receive, onLocal, hv]
    repeat' split
    all_goals rfl
  | _ => simp only [receive, onLocalMulti, onBehavior, onBehaviorMulti, onNet, unlessSeen, h, if_true]

/-- a signal that gets through after another arrival would have got through before it -/
theorem passes_before (id : WorkerId) (now : UInt64) {seen : SeenCalls} {source source' : Stream} {ctx : Context}
    {i : Uuid} {delivery : Delivery}
    (h : passes (receive id now seen source' ctx).1 source i delivery = true) : passes seen source i delivery = true := by
  by_cases hi : ctx.id = i
  · subst hi
    by_cases hc : ctx.id ∈ seen
    · rwa [receive_present id now source' hc] at h
    · unfold passes
      rw [Finmap.lookup_eq_none.mpr hc]
      cases source <;> rfl
  · unfold passes at h ⊢
    rwa [receive_other id now seen source' hi] at h

/-- what the loop makes of a call in the table whose delivery is `Limited(n)` -/
def onceSeen (n : UInt8) (i : Uuid) (source : Stream) (o : Outcome) : Prop :=
  match source with
  | .localStreams => if n ≤ 1 then o = .rejected (.alreadyProcessedSignal i) else o.isHandled = true
  | .localStreamsMulti | .localBehaviorStreamMulti => o = .dropped
  | .localBehaviorStream | .netStream => o = .rejected (.alreadyProcessedSignal i)

theorem receive_seen (id : WorkerId) (now : UInt64) {seen : SeenCalls} (source : Stream) {ctx : Context} {n : UInt8}
    (h : seen.lookup ctx.id = some (1, 0)) (hn : ctx.delivery = .limited n) :
    onceSeen n ctx.id source (receive id now seen source ctx).2 ∧
      (receive id now seen source ctx).1.lookup ctx.id = some (1, 0) := by
  have hm : ctx.id ∈ seen := Finmap.mem_iff.mpr ⟨_, h⟩
  cases source with
  | localStreams =>
    simp only [receive, onLocal, h, hn, onceSeen, ge_iff_le]
    split_ifs with hle
    · exact ⟨rfl, h⟩
    · exact ⟨rfl, h⟩
  | _ =>
    simp only [receive, onLocalMulti, onBehavior, onBehaviorMulti, onNet, unlessSeen, hm, if_true, onceSeen]
    exact ⟨trivial, h⟩

theorem onceSeen_isHandled {n : UInt8} {i : Uuid} {source : Stream} {o : Outcome} (h : onceSeen n i source o) :
    o.isHandled = true ↔ source = .localStreams ∧ ¬ n ≤ 1 := by
  cases source with
  | localStreams =>
    simp only [onceSeen] at h
    split_ifs at h with hn
    · simp [h, hn, Outcome.isHandled]
    · simp [h, hn]
  | _ =>
    simp only [onceSeen] at h
    simp [h, Outcome.isHandled]

theorem onceSeen_answered {n : UInt8} {i : Uuid} {source : Stream} {o : Outcome} (h : onceSeen n i source o) :
    (o.isHandled = false → o = .rejected (.alreadyProcessedSignal i)) ↔ source.multi = false := by
  cases source with
  | localStreams =>
    simp only [onceSeen] at h
    split_ifs at h with hn
    · simp [h, Stream.multi]
    · simp [h, Stream.multi]
  | _ =>
    simp only [onceSeen] at h
    simp [h, Stream.multi, Outcome.isHandled]

/-! ## The delivery limit -/

/-- the streams on which the signals of call `i` arrive, in order -/
def sourcesOf (i : Uuid) (as : List Arrival) : List Stream :=
  (as.filter fun a => a.ctx.id = i).map Arrival.source

/-- how many signals of call `i` reach the request handler -/
def handledOf (i : Uuid) (ps : List (Arrival × Outcome)) : ℕ :=
  ps.countP fun p => p.1.ctx.id = i && p.2.isHandled

/-- every signal of call `i` that is not handled is answered with the error -/
def Answered (i : Uuid) (ps : List (Arrival × Outcome)) : Prop :=
  ∀ p ∈ ps, p.1.ctx.id = i → p.2.isHandled = false → p.2 = .rejected (.alreadyProcessedSignal i)

instance (i : Uuid) (ps : List (Arrival × Outcome)) : Decidable (Answered i ps) :=
  inferInstanceAs (Decidable (∀ p ∈ ps, _ → _ → _))

/-- at most `n` signals of call `i` are handled, the others are answered with the error -/
def DeliveryLimit (n : UInt8) (i : Uuid) (ps : List (Arrival × Outcome)) : Prop :=
  handledOf i ps ≤ n.toNat ∧ Answered i ps

instance (n : UInt8) (i : Uuid) (ps : List (Arrival × Outcome)) : Decidable (DeliveryLimit n i ps) :=
  inferInstanceAs (Decidable (_ ∧ _))

/-- local signals of a seen `Limited(n)` call that still run the handler: the stored count stays 1 -/
def localAgain (n : UInt8) (sources : List Stream) : ℕ :=
  if n ≤ 1 then 0 else sources.count .localStreams

/-- arrivals that reach the handler: those up to the first on the local single-response stream, which enters the call
in the table, and the later ones there that the stored count lets through -/
def handlerRuns (n : UInt8) : List Stream → ℕ
  | [] => 0
  | s :: rest => 1 + if s = .localStreams then localAgain n rest else handlerRuns n rest

/-- the arrivals that find the call in the table -/
def afterLocal : List Stream → List Stream
  | [] => []
  | s :: rest => if s = .localStreams then rest else afterLocal rest

/-- at most `n` arrivals reach the handler, and once the call is in the table none comes on a multi-response stream -/
def WithinLimit (n : UInt8) (sources : List Stream) : Prop :=
  handlerRuns n sources ≤ n.toNat ∧ ∀ s ∈ afterLocal sources, s.multi = false

instance (n : UInt8) (sources : List Stream) : Decidable (WithinLimit n sources) :=
  inferInstanceAs (Decidable (_ ∧ _))

section Limited

variable (id : WorkerId) {i : Uuid} {n : UInt8}

theorem sourcesOf_cons (a : Arrival) (as : List Arrival) :
    sourcesOf i (a :: as) = if a.ctx.id = i then a.source :: sourcesOf i as else sourcesOf i as := by
  by_cases h : a.ctx.id = i <;> simp [sourcesOf, h]

theorem handledOf_cons (a : Arrival) (o : Outcome) (ps : List (Arrival × Outcome)) :
    handledOf i ((a, o) :: ps) = (if a.ctx.id = i ∧ o.isHandled = true then 1 else 0) + handledOf i ps := by
  simp only [handledOf, List.countP_cons, Bool.and_eq_true, decide_eq_true_eq]
  omega

theorem answered_cons (a : Arrival) (o : Outcome) (ps : List (Arrival × Outcome)) :
    Answered i ((a, o) :: ps) ↔
      (a.ctx.id = i → o.isHandled = false → o = .rejected (.alreadyProcessedSignal i)) ∧ Answered i ps :=
  List.forall_mem_cons

theorem localAgain_cons (s : Stream) (rest : List Stream) :
    localAgain n (s :: rest) = (if s = .localStreams ∧ ¬ n ≤ 1 then 1 else 0) + localAgain n rest := by
  simp only [localAgain, List.count_cons, beq_iff_eq]
  split_ifs <;> simp_all
  omega

/-- from a table that has the call: only local signals are handled, and only for an `n` above the stored count -/
theorem process_seen {as : List Arrival} (hn : ∀ a ∈ as, a.ctx.id = i → a.ctx.delivery = .limited n)
    {seen : SeenCalls} (h : seen.lookup i = some (1, 0)) :
    handledOf i (process id seen as) = localAgain n (sourcesOf i as) ∧
      (Answered i (process id seen as) ↔ ∀ s ∈ sourcesOf i as, s.multi = false) := by
  induction as generalizing seen with
  | nil => simp [process, handledOf, sourcesOf, localAgain, Answered]
  | cons a as ih =>
    have hn' := fun b hb => hn b (List.mem_cons_of_mem _ hb)
    simp only [process, handledOf_cons, answered_cons, sourcesOf_cons]
    by_cases ha : a.ctx.id = i
    · have ho := receive_seen id a.now a.source (ha ▸ h) (hn a List.mem_cons_self ha)
      rw [ha] at ho
      obtain ⟨ih1, ih2⟩ := ih hn' ho.2
      simp only [ha, true_and, true_implies, if_true, localAgain_cons, List.forall_mem_cons, ih1, ih2,
        onceSeen_isHandled ho.1, onceSeen_answered ho.1, and_self]
    · have ho := receive_other id a.now seen a.source ha
      obtain ⟨ih1, ih2⟩ := ih hn' (ho.trans h)
      simp only [ha, false_and, false_implies, if_false, true_and, Nat.zero_add, ih1, ih2, and_self]

/-- from a table without the call: the arrivals up to the first local one are handled, then `process_seen` takes over -/
theorem process_fresh {as : List Arrival} (hn : ∀ a ∈ as, a.ctx.id = i → a.ctx.delivery = .limited n)
    {seen : SeenCalls} (h : seen.lookup i = none) :
    handledOf i (process id seen as) = handlerRuns n (sourcesOf i as) ∧
      (Answered i (process id seen as) ↔ ∀ s ∈ afterLocal (sourcesOf i as), s.multi = false) := by
  induction as generalizing seen with
  | nil => simp [process, handledOf, sourcesOf, handlerRuns, afterLocal, Answered]
  | cons a as ih =>
    have hn' := fun b hb => hn b (List.mem_cons_of_mem _ hb)
    simp only [process, handledOf_cons, answered_cons, sourcesOf_cons]
    by_cases ha : a.ctx.id = i
    · obtain ⟨hh, hl⟩ := receive_fresh id a.now a.source (ha ▸ h)
      rw [ha] at hl
      simp only [ha, hh, and_self, if_true, reduceCtorEq, false_implies, implies_true, true_and, handlerRuns, afterLocal]
      by_cases hs : a.source = .localStreams
      · rw [if_pos hs] at hl
        obtain ⟨h1, h2⟩ := process_seen id hn' hl
        simp only [if_pos hs, h1, h2, and_self]
      · rw [if_neg hs] at hl
        obtain ⟨ih1, ih2⟩ := ih hn' hl
        simp only [hs, if_false, ih1, ih2, and_self]
    · have ho := receive_other id a.now seen a.source ha
      obtain ⟨ih1, ih2⟩ := ih hn' (ho.trans h)
      simp only [ha, false_and, false_implies, if_false, true_and, Nat.zero_add, ih1, ih2, and_self]

end Limited

/-- **When the delivery limit holds.** Let the signals of call `i` all carry `Limited(n)`. At most `n` of them are
handled and the others are answered with `AlreadyProcessedSignal` exactly when the streams they arrive on keep within
the limit, whatever else arrives in between. -/
theorem delivery_limit_iff (id : WorkerId) (i : Uuid) (n : UInt8) (as : List Arrival)
    (hn : ∀ a ∈ as, a.ctx.id = i → a.ctx.delivery = .limited n) :
    DeliveryLimit n i (process id ∅ as) ↔ WithinLimit n (sourcesOf i as) := by
  obtain ⟨h1, h2⟩ := process_fresh id hn (Finmap.lookup_empty i)
  simp only [DeliveryLimit, WithinLimit, h1, h2]

/-- a `Limited(n)` call of worker 5, as `Context::delivery(Some(n))` makes it -/
def limitedCall (n : UInt8) : Context :=
  (Context.new (.v4 7) 0 (.participant (.worker 5))).setDelivery (some n)

/-- two local signals of a `Limited(1)` call, then one from a behavior: one handled, two answered -/
theorem limited_once_holds :
    DeliveryLimit 1 (.v4 7) (process 0 ∅ [⟨.localStreams, limitedCall 1, 0⟩, ⟨.localStreams, limitedCall 1, 1⟩,
      ⟨.localBehaviorStream, limitedCall 1, 2⟩]) :=
  (delivery_limit_iff 0 (.v4 7) 1 _ (by decide)).mpr (by decide)

/-- **The limit is not kept.** Three local signals of one `Limited(2)` call: the stored count stays 1, all three run
the handler. -/
theorem limited_call_handled_thrice :
    ¬ ∀ (id : WorkerId) (i : Uuid) (n : UInt8) (as : List Arrival),
      (∀ a ∈ as, a.ctx.id = i ∧ a.ctx.delivery = .limited n) → DeliveryLimit n i (process id ∅ as) := by
  intro h
  have h3 := h 0 (.v4 7) 2 (List.replicate 3 ⟨.localStreams, limitedCall 2, 0⟩) (by decide)
  exact absurd h3 (by decide)

end BigWorlds.Inbox
