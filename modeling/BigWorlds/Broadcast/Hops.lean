/-
The hops that a global `Invoke` comes back with.

A worker's handler starts with the hops of the signal and merges in those of every answer, each observer once
(`merge_hops_unique`). The leader asks one worker after the other, with the hops it has by then, and takes over what an
answer has beyond them (`skip(ctx.hops.len())`). The two go together because an answer begins with the hops that the
signal was sent with: the leader's list becomes that of the answer.

So a list stays free of repetitions, and whoever has handled a signal is in it, as long as the handler that starts is
listed once. A signal between the parties of the cluster is sent only to who is not listed, and arrives on the local
stream, which lists the worker. What comes to the entry worker is another matter: the stream of its behaviors and that
of the network list nobody.

- `kept_step`: what every step keeps of the hops, for all graphs of local links;
- `well_traced_iff`: the hops of the response begin with those of the request, list nobody of the cluster twice and
  everyone whose response was received, in every cluster and every run, exactly if the request lists nobody twice, and
  the entry worker exactly when it comes on a stream that does not;
- `behavior_not_listed`: the call of a behavior comes back without the worker that has handled it.
-/
import BigWorlds.Broadcast.Once

namespace BigWorlds

/-! ## Merging hops -/

/-- a worker or the leader -/
def Participant.inCluster : Participant → Bool
  | .leader | .worker _ => true
  | .server _ | .client _ => false

namespace Context

abbrev observers (ctx : Context) : List Participant := ctx.hops.map NetworkHop.observer

theorem prefix_registerHop (ctx : Context) (now : UInt64) (p : Participant) :
    ctx.hops <+: (ctx.registerHop now p).hops := List.prefix_append _ _

theorem observers_registerHop (ctx : Context) (now : UInt64) (p : Participant) :
    (ctx.registerHop now p).observers = ctx.observers ++ [p] := by
  simp [observers, registerHop]

theorem any_observer {hops : List NetworkHop} {p : Participant} :
    (hops.any fun hop => hop.observer = p) = true ↔ p ∈ hops.map NetworkHop.observer := by
  simp [List.any_eq_true, List.mem_map]

theorem prefix_mergeHop (hops : List NetworkHop) (h : NetworkHop) : hops <+: mergeHop hops h := by
  unfold mergeHop
  split_ifs
  · exact List.prefix_rfl
  · exact List.prefix_append _ _

theorem observer_mem_mergeHop (hops : List NetworkHop) (h : NetworkHop) :
    h.observer ∈ (mergeHop hops h).map NetworkHop.observer := by
  unfold mergeHop
  split_ifs with hany
  · exact any_observer.1 hany
  · simp

/-- who is not in the list yet joins it, and nobody is in it twice -/
theorem count_concat_le {l : List Participant} {p q : Participant} (hp : p ∉ l) (hq : l.count q ≤ 1) :
    (l ++ [p]).count q ≤ 1 := by
  rw [List.count_append, List.count_singleton]
  split_ifs with heq
  · obtain rfl : p = q := by simpa using heq
    rw [List.count_eq_zero_of_not_mem hp]
  · exact hq

theorem count_mergeHop {hops : List NetworkHop} {p : Participant} (hp : (hops.map NetworkHop.observer).count p ≤ 1)
    (h : NetworkHop) : ((mergeHop hops h).map NetworkHop.observer).count p ≤ 1 := by
  unfold mergeHop
  split_ifs with hany
  · exact hp
  · have hnot : h.observer ∉ hops.map NetworkHop.observer := by
      intro hm
      exact hany (any_observer.2 hm)
    rw [List.map_append, List.map_singleton]
    exact count_concat_le hnot hp

theorem prefix_foldl_mergeHop (hops other : List NetworkHop) : hops <+: other.foldl mergeHop hops := by
  induction other generalizing hops with
  | nil => exact List.prefix_rfl
  | cons h other ih => exact (prefix_mergeHop hops h).trans (ih (mergeHop hops h))

theorem count_foldl_mergeHop {hops : List NetworkHop} {p : Participant}
    (hp : (hops.map NetworkHop.observer).count p ≤ 1) (other : List NetworkHop) :
    ((other.foldl mergeHop hops).map NetworkHop.observer).count p ≤ 1 := by
  induction other generalizing hops with
  | nil => exact hp
  | cons h other ih => exact ih (count_mergeHop hp h)

/-- everyone who is in the other list is in the merged one -/
theorem observers_subset_foldl_mergeHop (hops other : List NetworkHop) :
    other.map NetworkHop.observer ⊆ (other.foldl mergeHop hops).map NetworkHop.observer := by
  induction other generalizing hops with
  | nil => exact List.nil_subset _
  | cons h other ih =>
    have hgrows := (prefix_foldl_mergeHop (mergeHop hops h) other).map NetworkHop.observer
    exact List.cons_subset.mpr ⟨hgrows.subset (observer_mem_mergeHop hops h), ih (mergeHop hops h)⟩

/-- skipping as many hops as there are amounts to taking the other list, when it begins with these -/
theorem mergeHops_of_prefix {ctx : Context} {other : List NetworkHop} (h : ctx.hops <+: other) :
    (ctx.mergeHops other).hops = other := by
  obtain ⟨rest, rfl⟩ := h
  simp [mergeHops]

end Context

namespace Broadcast

open BigWorlds.Core (run run_keeps)
open Forwarding (broadcastTo broadcastToLeader workerBroadcastTo)

/-! ## Responses -/

/-- who handles the signal -/
def Activity.participant : Activity → Option Participant
  | .worker x => some (.worker x.worker)
  | .leader _ => some .leader
  | _ => none

/-- what the handler answers with, if not an error -/
def Activity.response (handles : WorkerId → Option (List BehaviorHandle)) : Activity → Option Context
  | .worker x => (handles x.worker).map fun _ => x.merged
  | .leader x => some x.ctx
  | _ => none

def Task.response (handles : WorkerId → Option (List BehaviorHandle)) (t : Task) : Option Context :=
  if t.done then t.activity.response handles else none

/-- the context that comes back to the caller -/
def returned (handles : WorkerId → Option (List BehaviorHandle)) (s : System) : Option Context :=
  (s.tasks[0]?).bind (Task.response handles)

/-- the response of the task was received, and so was that of who waited for it, up to the caller -/
inductive Received (handles : WorkerId → Option (List BehaviorHandle)) (s : System) : Task → Prop
  | caller {t : Task} {ctx : Context} :
      s.tasks[0]? = some t → t.response handles = some ctx → Received handles s t
  | branch {p h : ℕ} {u t : Task} {ctx : Context} :
      s.tasks[p]? = some u → Received handles s u → s.tasks[h]? = some t → t.parent = some p →
      t.response handles = some ctx → Received handles s t

/-- the hops that came back -/
structure WellTraced (handles : WorkerId → Option (List BehaviorHandle)) (request : Context) (s : System)
    (ctx : Context) : Prop where
  pre : request.hops <+: ctx.hops
  once : ∀ p : Participant, p.inCluster = true → ctx.observers.count p ≤ 1
  all : ∀ t p, Received handles s t → t.activity.participant = some p → p ∈ ctx.observers

/-! ## What is kept -/

/-- the hops of the request come first, and nobody of the cluster is listed twice -/
structure Traced (request ctx : Context) : Prop where
  pre : request.hops <+: ctx.hops
  once : ∀ p : Participant, p.inCluster = true → ctx.observers.count p ≤ 1

/-- the worker will be listed where the signal arrives, or it is already; who handles it is listed -/
def Activity.Tracks (request : Context) : Activity → Prop
  | .toWorker w source ctx => Traced request ctx ∧ (source.registers = true ↔ .worker w ∉ ctx.observers)
  | .toLeader ctx => Traced request ctx ∧ .leader ∉ ctx.observers
  | .worker x => Traced request x.ctx ∧ Traced request x.merged ∧ x.ctx.hops <+: x.merged.hops ∧
      .worker x.worker ∈ x.ctx.observers
  | .leader x => Traced request x.ctx ∧ .leader ∈ x.ctx.observers

/-- the hops that have come together at a task -/
def Activity.trace : Activity → Context
  | .toWorker _ _ ctx => ctx
  | .toLeader ctx => ctx
  | .worker x => x.merged
  | .leader x => x.ctx

structure Orderly (request : Context) (t : Task) : Prop where
  tracks : t.activity.Tracks request
  /-- only a handler that has not answered waits for answers -/
  quiet : t.done = true ∨ t.activity.participant = none → t.waiting = ∅
  /-- the leader waits for one at a time -/
  single : t.activity.isLeader = true → ∀ i ∈ t.waiting, ∀ j ∈ t.waiting, i = j

/-- task `h`, which is `t`, against who waits for its answer -/
structure Link (handles : WorkerId → Option (List BehaviorHandle)) (h : ℕ) (t u : Task) : Prop where
  /-- until the answer comes, the leader has the hops that it sent -/
  pending : t.done = false →
    u.done = false ∧ h ∈ u.waiting ∧ ∀ x, u.activity = .leader x → x.ctx.hops <+: t.activity.trace.hops
  answered : ∀ ctx, t.response handles = some ctx → ctx.observers ⊆ u.activity.trace.observers

structure Kept (handles : WorkerId → Option (List BehaviorHandle)) (request : Context) (s : System) : Prop where
  task : ∀ {h : ℕ} {t : Task}, s.tasks[h]? = some t → Orderly request t
  link : ∀ {h : ℕ} {t : Task} {p : ℕ}, s.tasks[h]? = some t → t.parent = some p →
    p < h ∧ ∃ u, s.tasks[p]? = some u ∧ Link handles h t u

section
variable {c : Cluster} {handles : WorkerId → Option (List BehaviorHandle)} {events : List EventName}
  {request ctx : Context} {s s' : System} {h : ℕ} {t t' u : Task}

theorem Traced.registerHop (ht : Traced request ctx) (now : UInt64) {p : Participant} (hp : p ∉ ctx.observers) :
    Traced request (ctx.registerHop now p) := by
  refine ⟨ht.pre.trans (ctx.prefix_registerHop now p), fun q hq => ?_⟩
  rw [Context.observers_registerHop]
  exact Context.count_concat_le hp (ht.once q hq)

theorem Traced.mergeHopsUnique (ht : Traced request ctx) (other : List NetworkHop) :
    Traced request (ctx.mergeHopsUnique other) :=
  ⟨ht.pre.trans (Context.prefix_foldl_mergeHop ctx.hops other), fun p hp =>
    Context.count_foldl_mergeHop (ht.once p hp) other⟩

theorem Traced.mergeHops {ctx' : Context} (ht : Traced request ctx') (hpre : ctx.hops <+: ctx'.hops) :
    Traced request (ctx.mergeHops ctx'.hops) := by
  have heq : (ctx.mergeHops ctx'.hops).hops = ctx'.hops := Context.mergeHops_of_prefix hpre
  refine ⟨?_, fun p hp => ?_⟩
  · rw [heq]
    exact ht.pre
  · rw [Context.observers, heq]
    exact ht.once p hp

theorem response_eq_trace {a : Activity} (ha : a.response handles = some ctx) : ctx = a.trace := by
  cases a with
  | worker x =>
    obtain ⟨_, _, rfl⟩ := Option.map_eq_some_iff.mp ha
    rfl
  | leader x => exact (Option.some.inj ha).symm
  | _ => cases ha

theorem task_response_eq_trace (ht : t.response handles = some ctx) : ctx = t.activity.trace := by
  unfold Task.response at ht
  split_ifs at ht
  exact response_eq_trace ht

theorem Activity.Tracks.traced {a : Activity} (ha : a.Tracks request) : Traced request a.trace := by
  cases a with
  | worker x => exact ha.2.1
  | _ => exact ha.1

theorem Activity.Tracks.participant_mem {a : Activity} (ha : a.Tracks request) {p : Participant}
    (hp : a.participant = some p) : p ∈ a.trace.observers := by
  cases a with
  | worker x =>
    obtain rfl := Option.some.inj hp
    exact (ha.2.2.1.map NetworkHop.observer).subset ha.2.2.2
  | leader x =>
    obtain rfl := Option.some.inj hp
    exact ha.2
  | _ => cases hp

/-! ## An answer comes -/

theorem told_leader {answer : Option Context} {x' : LeaderHandler} (hx : (u.told h answer).activity = .leader x') :
    ∃ x, u.activity = .leader x ∧ x'.ctx = (answer.map fun k => x.ctx.mergeHops k.hops).getD x.ctx := by
  obtain ⟨parent, activity, waiting, done⟩ := u
  cases activity with
  | leader x =>
    refine ⟨x, rfl, ?_⟩
    cases answer with
    | none => exact (congrArg LeaderHandler.ctx (Activity.leader.inj hx)).symm
    | some k => exact (congrArg LeaderHandler.ctx (Activity.leader.inj hx)).symm
  | _ => cases answer <;> cases hx

theorem told_participant (u : Task) (h : ℕ) (answer : Option Context) :
    (u.told h answer).activity.participant = u.activity.participant := by
  obtain ⟨parent, activity, waiting, done⟩ := u
  cases activity <;> cases answer <;> rfl

theorem prefix_told (u : Task) (h : ℕ) (answer : Option Context) :
    u.activity.trace.hops <+: (u.told h answer).activity.trace.hops := by
  obtain ⟨parent, activity, waiting, done⟩ := u
  cases answer with
  | none => cases activity <;> exact List.prefix_rfl
  | some k =>
    cases activity with
    | worker x => exact Context.prefix_foldl_mergeHop x.merged.hops k.hops
    | leader x => exact List.prefix_append _ _
    | _ => exact List.prefix_rfl

/-- both ways of merging keep the list in order: the leader's as long as the answer begins with what it sent -/
theorem tracks_told (hu : u.activity.Tracks request) (h : ℕ) {answer : Option Context}
    (hanswer : ∀ k, answer = some k → Traced request k ∧ ∀ x, u.activity = .leader x → x.ctx.hops <+: k.hops) :
    (u.told h answer).activity.Tracks request := by
  obtain ⟨parent, activity, waiting, done⟩ := u
  cases answer with
  | none => cases activity <;> exact hu
  | some k =>
    obtain ⟨hk, hpre⟩ := hanswer k rfl
    cases activity with
    | worker x =>
      exact ⟨hu.1, hu.2.1.mergeHopsUnique k.hops,
        hu.2.2.1.trans (Context.prefix_foldl_mergeHop x.merged.hops k.hops), hu.2.2.2⟩
    | leader x =>
      have hgrows : x.ctx.hops <+: (x.ctx.mergeHops k.hops).hops := List.prefix_append _ _
      exact ⟨hk.mergeHops (hpre x rfl), (hgrows.map NetworkHop.observer).subset hu.2⟩
    | _ => exact hu

/-- whoever the answer lists, the one who waited for it lists too -/
theorem observers_subset_told (hp : u.activity.participant ≠ none) {k : Context}
    (hpre : ∀ x, u.activity = .leader x → x.ctx.hops <+: k.hops) :
    k.observers ⊆ (u.told h (some k)).activity.trace.observers := by
  obtain ⟨parent, activity, waiting, done⟩ := u
  cases activity with
  | worker x => exact Context.observers_subset_foldl_mergeHop x.merged.hops k.hops
  | leader x =>
    have heq : (x.ctx.mergeHops k.hops).hops = k.hops := Context.mergeHops_of_prefix (hpre x rfl)
    show k.observers ⊆ (x.ctx.mergeHops k.hops).observers
    rw [Context.observers, Context.observers, heq]
    exact List.Subset.refl _
  | _ => exact absurd rfl hp

/-! ## What a change of one task must keep -/

theorem Kept.set (hk : Kept handles request s) (ht : s.tasks[h]? = some t) (hparent : t'.parent = t.parent)
    (ho : Orderly request t')
    (hup : ∀ p u, t.parent = some p → s.tasks[p]? = some u → Link handles h t u → Link handles h t' u)
    (hdown : ∀ j v, s.tasks[j]? = some v → v.parent = some h → Link handles j v t → Link handles j v t') :
    Kept handles request (s.set h t') := by
  refine ⟨fun {k v} hv => ?_, fun {k v p} hv hp => ?_⟩
  · rcases (System.mem_set ht).mp hv with ⟨_, rfl⟩ | ⟨_, hv⟩
    · exact ho
    · exact hk.task hv
  · rcases (System.mem_set ht).mp hv with ⟨rfl, rfl⟩ | ⟨_, hold⟩
    · obtain ⟨hlt, u, hu, hl⟩ := hk.link ht (hparent ▸ hp)
      exact ⟨hlt, u, (System.mem_set ht).mpr (Or.inr ⟨Nat.ne_of_lt hlt, hu⟩), hup p u (hparent ▸ hp) hu hl⟩
    · obtain ⟨hlt, u, hu, hl⟩ := hk.link hold hp
      by_cases hph : p = h
      · subst hph
        obtain rfl : u = t := Option.some.inj (hu.symm.trans ht)
        exact ⟨hlt, t', (System.mem_set ht).mpr (Or.inl ⟨rfl, rfl⟩), hdown k v hold hp hl⟩
      · exact ⟨hlt, u, (System.mem_set ht).mpr (Or.inr ⟨hph, hu⟩), hl⟩

/-- a task whose hops grow; a leader's only while it waits for nobody -/
theorem Kept.grow (hk : Kept handles request s) (ht : s.tasks[h]? = some t) (hd : t.done = false)
    (hparent : t'.parent = t.parent) (hd' : t'.done = false) (ho : Orderly request t')
    (hgrows : t.activity.trace.hops <+: t'.activity.trace.hops)
    (hopen : t.waiting = ∅ ∨ t.waiting ⊆ t'.waiting ∧ t'.activity.isLeader = false) :
    Kept handles request (s.set h t') := by
  refine hk.set ht hparent ho (fun p u _ _ hl => ?_) fun j v _ _ hl => ?_
  · obtain ⟨hud, hmem, hpre⟩ := hl.pending hd
    refine ⟨fun _ => ⟨hud, hmem, fun x hx => (hpre x hx).trans hgrows⟩, fun ctx hctx => ?_⟩
    rw [Task.response, hd'] at hctx
    cases hctx
  · refine ⟨fun hvd => ?_, fun ctx hctx => ?_⟩
    · obtain ⟨_, hmem, _⟩ := hl.pending hvd
      rcases hopen with hempty | ⟨hsub, hleader⟩
      · exact absurd hmem (by rw [hempty]; exact Finset.notMem_empty j)
      · exact ⟨hd', hsub hmem, fun x hx => absurd hleader (by rw [hx]; simp [Activity.isLeader])⟩
    · exact List.Subset.trans (hl.answered ctx hctx) (hgrows.map NetworkHop.observer).subset

/-- a signal is sent -/
theorem Kept.push (hk : Kept handles request s) (hu : s.tasks[h]? = some u) (hd : u.done = false)
    (hw : s.tasks.length ∈ u.waiting) {a : Activity} (ha : a.Tracks request)
    (hpre : ∀ x, u.activity = .leader x → x.ctx.hops <+: a.trace.hops) :
    Kept handles request (s.push ⟨some h, a, ∅, false⟩) := by
  refine ⟨fun {k v} hv => ?_, fun {k v p} hv hparent => ?_⟩
  · rcases System.mem_push.1 hv with hv | ⟨_, rfl⟩
    · exact hk.task hv
    · exact ⟨ha, fun _ => rfl, fun _ i hi => absurd hi (Finset.notMem_empty i)⟩
  · rcases System.mem_push.1 hv with hv | ⟨rfl, rfl⟩
    · obtain ⟨hlt, u, hu, hl⟩ := hk.link hv hparent
      exact ⟨hlt, u, System.mem_push.2 (Or.inl hu), hl⟩
    · obtain rfl : h = p := Option.some.inj hparent
      obtain ⟨hlt, _⟩ := List.getElem?_eq_some_iff.mp hu
      exact ⟨hlt, u, System.mem_push.2 (Or.inl hu), fun _ => ⟨hd, hw, hpre⟩, fun ctx hctx => by cases hctx⟩

theorem ask_some (hlt : h < s.tasks.length) (t : Task) (b : Activity) :
    s.ask h t (some b) =
      (s.set h { t with waiting := insert s.tasks.length t.waiting }).push ⟨some h, b, ∅, false⟩ := by
  simp only [System.ask, System.set, System.push, List.set_append_left _ _ hlt]

/-- a handler goes on, and sends a signal or not; the leader's when it waits for nobody -/
theorem Kept.ask (hk : Kept handles request s) (ht : s.tasks[h]? = some t) (hd : t.done = false) {a : Activity}
    (signal : Option Activity) (ha : a.Tracks request) (hpart : a.participant ≠ none)
    (htrace : a.trace = t.activity.trace) (hleader : a.isLeader = true → t.waiting = ∅)
    (hsignal : ∀ b, signal = some b →
      b.Tracks request ∧ ∀ x, a = .leader x → x.ctx.hops <+: b.trace.hops) :
    Kept handles request (s.ask h { t with activity := a } signal) := by
  have hset : ∀ waiting, t.waiting ⊆ waiting →
      (a.isLeader = true → ∀ i ∈ waiting, ∀ j ∈ waiting, i = j) →
      Kept handles request (s.set h { t with activity := a, waiting }) := by
    intro waiting hsub hsingle
    refine hk.grow ht hd rfl hd ⟨ha, ?_, hsingle⟩ (by rw [htrace]) ?_
    · rintro (hdone | hnone)
      · exact absurd (hd.symm.trans hdone) (by simp)
      · exact absurd hnone hpart
    · by_cases hl : a.isLeader = true
      · exact Or.inl (hleader hl)
      · exact Or.inr ⟨hsub, by simpa using hl⟩
  cases signal with
  | none =>
    refine hset t.waiting (Finset.Subset.refl _) fun hl i hi => ?_
    rw [hleader hl] at hi
    exact absurd hi (Finset.notMem_empty i)
  | some b =>
    obtain ⟨hb, hpre⟩ := hsignal b rfl
    obtain ⟨hlt, _⟩ := List.getElem?_eq_some_iff.mp ht
    rw [ask_some hlt]
    have hlen : (s.set h { t with activity := a, waiting := insert s.tasks.length t.waiting }).tasks.length =
        s.tasks.length := List.length_set
    refine Kept.push (hset _ (Finset.subset_insert _ _) fun hl i hi j hj => ?_)
      ((System.mem_set ht).mpr (Or.inl ⟨rfl, rfl⟩)) hd ?_ hb hpre
    · rw [hleader hl] at hi hj
      simp only [insert_empty_eq, Finset.mem_singleton] at hi hj
      rw [hi, hj]
    · rw [hlen]
      exact Finset.mem_insert_self _ _

/-- a task that waits for nobody has answered -/
theorem Kept.done (hk : Kept handles request s) (ht : s.tasks[h]? = some t) (hw : t.waiting = ∅)
    (hup : ∀ p u ctx, t.parent = some p → s.tasks[p]? = some u → t.activity.response handles = some ctx →
      ctx.observers ⊆ u.activity.trace.observers) :
    Kept handles request (s.set h { t with done := true }) := by
  have ho := hk.task ht
  refine hk.set ht rfl ⟨ho.tracks, fun _ => hw, ho.single⟩ (fun p u hp hu _ => ⟨fun hd => ?_, fun ctx hctx => ?_⟩)
    fun j v _ _ hl => ⟨fun hvd => ?_, hl.answered⟩
  · cases hd
  · exact hup p u ctx hp hu hctx
  · obtain ⟨_, hmem, _⟩ := hl.pending hvd
    exact absurd hmem (by rw [hw]; exact Finset.notMem_empty j)

/-- task `u` merges the answer of task `h`, for which it still waits -/
theorem Kept.merge (hk : Kept handles request s) (ht : s.tasks[h]? = some t) (hd : t.done = false) {p : ℕ}
    (hu : s.tasks[p]? = some u) (hl : Link handles h t u) {answer : Option Context}
    (hanswer : answer = t.activity.response handles) :
    Kept handles request (s.set p { u with activity := (u.told h answer).activity }) := by
  obtain ⟨hud, hmem, hpre⟩ := hl.pending hd
  have ho := hk.task hu
  have hsame : ∀ k, answer = some k → k = t.activity.trace := fun k hk' => response_eq_trace (hanswer.symm.trans hk')
  refine hk.set hu rfl ⟨?_, fun hq => ho.quiet ?_, fun hlead => ho.single ?_⟩ (fun q v _ _ hl' => ?_)
    fun j v hv hvp hl' => ?_
  · refine tracks_told ho.tracks h fun k hk' => ?_
    obtain rfl := hsame k hk'
    exact ⟨(hk.task ht).tracks.traced, hpre⟩
  · exact hq.imp_right fun hnone => (told_participant u h answer).symm.trans hnone
  · exact (told_isLeader u h answer).symm.trans hlead
  · obtain ⟨hvd, hpm, hpre'⟩ := hl'.pending hud
    refine ⟨fun _ => ⟨hvd, hpm, fun x hx => (hpre' x hx).trans (prefix_told u h answer)⟩, fun ctx hctx => ?_⟩
    rw [Task.response, hud] at hctx
    cases hctx
  · refine ⟨fun hvd => ?_, fun ctx hctx =>
      List.Subset.trans (hl'.answered ctx hctx) ((prefix_told u h answer).map NetworkHop.observer).subset⟩
    obtain ⟨_, hj, hpre'⟩ := hl'.pending hvd
    refine ⟨hud, hj, fun x' hx' => ?_⟩
    -- the leader waits for this answer only, and its list is that of the answer now
    obtain ⟨x, hx, hctx⟩ := told_leader (h := h) hx'
    obtain rfl : j = h := ho.single (by rw [hx]; rfl) j hj h hmem
    obtain rfl : v = t := Option.some.inj (hv.symm.trans ht)
    rw [hctx]
    cases hans : answer with
    | none => exact hpre x hx
    | some k =>
      obtain rfl := hsame k hans
      rw [Option.map_some, Option.getD_some, Context.mergeHops_of_prefix (hpre x hx)]

/-- the answer of task `h` is no longer waited for -/
theorem Kept.forget (hk : Kept handles request s) (ht : s.tasks[h]? = some t) (hd : t.done = true) {p : ℕ}
    (hu : s.tasks[p]? = some u) :
    Kept handles request (s.set p { u with waiting := u.waiting.erase h }) := by
  have ho := hk.task hu
  refine hk.set hu rfl ⟨ho.tracks, fun hq => ?_, fun hlead i hi j hj => ?_⟩
    (fun q v _ _ hl => ⟨hl.pending, hl.answered⟩) fun j v hv hvp hl => ⟨fun hvd => ?_, hl.answered⟩
  · rw [ho.quiet hq, Finset.erase_empty]
  · exact ho.single hlead i (Finset.mem_of_mem_erase hi) j (Finset.mem_of_mem_erase hj)
  · obtain ⟨hud, hj, hpre⟩ := hl.pending hvd
    refine ⟨hud, Finset.mem_erase.mpr ⟨?_, hj⟩, hpre⟩
    rintro rfl
    obtain rfl : v = t := Option.some.inj (hv.symm.trans ht)
    exact absurd (hvd.symm.trans hd) (by simp)

/-- a task answers -/
theorem Kept.answer (hk : Kept handles request s) (ht : s.tasks[h]? = some t) (hd : t.done = false)
    (hw : t.waiting = ∅) {answer : Option Context} (hanswer : answer = t.activity.response handles) :
    Kept handles request (s.answer h t answer) := by
  cases hp : t.parent with
  | none =>
    have hself : s.answer h t answer = s.set h { t with done := true } := by
      simp only [System.answer, System.tell, hp]
    rw [hself]
    exact hk.done ht hw fun p u ctx hp' => absurd (hp.symm.trans hp') (by simp)
  | some p =>
    obtain ⟨hlt, u, hu, hl⟩ := hk.link ht hp
    obtain ⟨_, hmem, hpre⟩ := hl.pending hd
    have hne : h ≠ p := Nat.ne_of_gt hlt
    have hpart : u.activity.participant ≠ none := fun hnone => by
      rw [(hk.task hu).quiet (Or.inr hnone)] at hmem
      exact Finset.notMem_empty h hmem
    let u₁ : Task := { u with activity := (u.told h answer).activity }
    have ht₁ : (s.set p u₁).tasks[h]? = some t := (System.mem_set hu).mpr (Or.inr ⟨hne, ht⟩)
    have hu₁ : (s.set p u₁).tasks[p]? = some u₁ := (System.mem_set hu).mpr (Or.inl ⟨rfl, rfl⟩)
    have hdone := (hk.merge ht hd hu hl hanswer).done ht₁ hw fun q v ctx hq hv hctx => by
      obtain rfl : p = q := Option.some.inj (hp.symm.trans hq)
      obtain rfl := Option.some.inj (hv.symm.trans hu₁)
      obtain rfl := response_eq_trace hctx
      show t.activity.trace.observers ⊆ (u.told h answer).activity.trace.observers
      rw [hanswer.trans hctx]
      exact observers_subset_told hpart hpre
    have hforget := hdone.forget ((System.mem_set ht₁).mpr (Or.inl ⟨rfl, rfl⟩)) rfl
      ((System.mem_set ht₁).mpr (Or.inr ⟨Ne.symm hne, hu₁⟩))
    have hself : s.answer h t answer =
        ((s.set p u₁).set h { t with done := true }).set p (u.told h answer) := by
      simp only [System.answer, System.tell, hp, hu, System.set]
      rw [List.set_comm _ _ hne, List.set_set]
    rw [hself]
    exact hforget

/-! ## One step -/

/-- a worker that gets a signal lists itself, if it is not listed -/
theorem handled_tracks {w : WorkerId} {source : Inbox.Stream} {now : UInt64} {ctx' : Context}
    (ha : (Activity.toWorker w source ctx).Tracks request)
    (hctx : ctx' = if source.registers then ctx.registerHop now (.worker w) else ctx) :
    Traced request ctx' ∧ .worker w ∈ ctx'.observers ∧ ctx.hops <+: ctx'.hops := by
  obtain ⟨htraced, hlisted⟩ := ha
  subst hctx
  split_ifs with hr
  · refine ⟨htraced.registerHop now (hlisted.mp hr), ?_, ctx.prefix_registerHop now _⟩
    rw [Context.observers_registerHop]
    exact List.mem_append_right _ List.mem_cons_self
  · refine ⟨htraced, ?_, List.prefix_rfl⟩
    by_contra hnot
    exact hr (hlisted.mpr hnot)

theorem kept_receive (hk : Kept handles request s) (ht : s.tasks[h]? = some t) (hd : t.done = false) {w : WorkerId}
    {source : Inbox.Stream} (ha : t.activity = .toWorker w source ctx) (now : UInt64) :
    Kept handles request (s.receive c handles events h t w source ctx now) := by
  have ho := hk.task ht
  have hw : t.waiting = ∅ := ho.quiet (Or.inr (by rw [ha]; rfl))
  have hrejected : Kept handles request (s.answer h t none) := hk.answer ht hd hw (by rw [ha]; rfl)
  unfold System.receive
  cases hst : c.stateOf w with
  | none => exact hrejected
  | some st =>
    simp only
    cases hout : (Inbox.receive w now (s.seen w) source ctx).2 with
    | handled ctx' =>
      have htracks := ho.tracks
      rw [ha] at htracks
      obtain ⟨htraced, hlisted, hpre⟩ := handled_tracks htracks (Inbox.receive_handled hout)
      have hnew : Kept handles request
          (s.set h { t with activity := .worker (begin handles events w st ctx') }) := by
        refine hk.grow ht hd rfl hd ⟨⟨htraced, htraced, List.prefix_rfl, hlisted⟩, fun _ => hw, fun hl => ?_⟩ ?_
          (Or.inl hw)
        · cases hl
        · rw [ha]
          exact hpre
      exact ⟨hnew.task, hnew.link⟩
    | rejected e => exact ⟨hrejected.task, hrejected.link⟩
    | dropped => exact ⟨hrejected.task, hrejected.link⟩

/-- a peer gets a signal on its local stream, when it is not listed -/
theorem tracks_toPeer (hl : LocalLinks c) {x : WorkerHandler} (hx : Traced request x.ctx) {p : WorkerId} {b : Activity}
    (hb : x.toPeer c p = some b) : b.Tracks request := by
  obtain ⟨exec, hexec, rfl⟩ := Option.map_eq_some_iff.mp hb
  obtain ⟨st, hst, hto⟩ := Option.bind_eq_some_iff.mp hexec
  unfold broadcastTo at hto
  split_ifs at hto with hwent
  split at hto
  · rename_i hlook
    obtain rfl : exec = .local := Option.some.inj hto ▸ hl.peers _ _ _ _ hst hlook
    refine ⟨hx, fun _ hm => hwent ?_, fun _ => rfl⟩
    exact (Context.wentThroughWorker_iff _ _).mpr (Or.inr hm)
  · cases hto

theorem tracks_toLeader {x : WorkerHandler} (hx : Traced request x.ctx) {b : Activity}
    (hb : x.toLeader c = some b) : b.Tracks request := by
  obtain ⟨exec, hexec, rfl⟩ := Option.map_eq_some_iff.mp hb
  obtain ⟨st, _, hto⟩ := Option.bind_eq_some_iff.mp hexec
  unfold broadcastToLeader at hto
  split_ifs at hto with hwent
  exact ⟨hx, fun hm => hwent ((Context.wentThroughLeader_iff _).mpr (Or.inr hm))⟩

/-- so does a worker of the leader, with the leader's hops -/
theorem tracks_toWorker (hl : LocalLinks c) {x : LeaderHandler} (hx : Traced request x.ctx) {p : WorkerId}
    {b : Activity} (hb : x.toWorker c p = some b) : b.Tracks request ∧ b.trace = x.ctx := by
  obtain ⟨exec, hto, rfl⟩ := Option.map_eq_some_iff.mp hb
  unfold workerBroadcastTo at hto
  split_ifs at hto with hwent
  obtain rfl : exec = .local := hl.leader _ _ hto
  refine ⟨⟨hx, fun _ hm => hwent ?_, fun _ => rfl⟩, rfl⟩
  exact (Context.wentThroughWorker_iff _ _).mpr (Or.inr hm)

/-- the leader's handler goes on when the last answer has come -/
theorem leader_waits {x : LeaderHandler} (hact : s.active h = some t) (ha : t.activity = .leader x) {p : WorkerId}
    {o : Op} (ho : o = .send h p ∨ o = .finish h) (hn : next c handles events s o = some s') : t.waiting = ∅ := by
  rcases ho with rfl | rfl
  · simp only [next, hact, ha] at hn
    split_ifs at hn with hw
    exact hw.2
  · simp only [next, hact, ha] at hn
    split_ifs at hn with hw
    exact hw.2

theorem kept_step (hl : LocalLinks c) (hk : Kept handles request s) (o : Op) :
    Kept handles request (step c handles events s o) := by
  unfold step
  cases hn : next c handles events s o with
  | none => exact hk
  | some s' =>
    obtain ⟨h, t, hact, hh⟩ := next_cases hn
    obtain ⟨ht, hd⟩ := System.active_eq_some.1 hact
    have htracks := (hk.task ht).tracks
    rw [Option.getD_some]
    cases hh with
    | arrive now ha => exact kept_receive hk ht hd ha now
    | @arriveLeader ctx now ha =>
      have hw : t.waiting = ∅ := (hk.task ht).quiet (Or.inr (by rw [ha]; rfl))
      rw [ha] at htracks
      refine hk.grow ht hd rfl hd ⟨⟨htracks.1.registerHop now htracks.2, ?_⟩, fun _ => hw, fun _ i hi => ?_⟩ ?_
        (Or.inl hw)
      · rw [Context.observers_registerHop]
        exact List.mem_append_right _ List.mem_cons_self
      · exact absurd hi (by rw [hw]; exact Finset.notMem_empty i)
      · rw [ha]
        exact ctx.prefix_registerHop now .leader
    | @send x p ha _ =>
      rw [ha] at htracks
      refine hk.ask ht hd _ htracks (by simp [Activity.participant]) (by rw [ha]; rfl) (fun hlead => by cases hlead)
        fun b hb => ⟨tracks_toPeer hl htracks.1 hb, fun x hx => by cases hx⟩
    | @sendWorker x p ha _ =>
      rw [ha] at htracks
      refine hk.ask ht hd _ htracks (by simp [Activity.participant]) (by rw [ha]; rfl)
        (fun _ => leader_waits hact ha (Or.inl rfl) hn) fun b hb => ?_
      obtain ⟨hb, htrace⟩ := tracks_toWorker hl htracks.1 hb
      refine ⟨hb, fun y hy => ?_⟩
      rw [htrace, ← Activity.leader.inj hy]
    | @sendLeader x ha _ =>
      rw [ha] at htracks
      refine hk.ask ht hd _ htracks (by simp [Activity.participant]) (by rw [ha]; rfl) (fun hlead => by cases hlead)
        fun b hb => ⟨tracks_toLeader htracks.1 hb, fun x hx => by cases hx⟩
    | trigger ha _ =>
      rw [ha] at htracks
      exact hk.ask ht hd none htracks (by simp [Activity.participant]) (by rw [ha]; rfl)
        (fun hlead => by cases hlead) (by simp)
    | finish ha hj _ => exact hk.answer ht hd hj.2.2 (by rw [ha]; rfl)
    | finishLeader ha _ =>
      exact hk.answer ht hd (leader_waits (p := 0) hact ha (Or.inr rfl) hn) (by rw [ha]; rfl)

/-! ## The whole run -/

theorem kept_start {entry : WorkerId} {source : Inbox.Stream}
    (honce : ∀ p : Participant, p.inCluster = true → request.observers.count p ≤ 1)
    (hlisted : source.registers = true ↔ .worker entry ∉ request.observers) :
    Kept handles request (start c entry source request) := by
  have honly : ∀ {h : ℕ} {t : Task}, (start c entry source request).tasks[h]? = some t →
      t = ⟨none, .toWorker entry source request, ∅, false⟩ := fun ht =>
    List.mem_singleton.mp (List.mem_of_getElem? ht)
  refine ⟨fun ht => ?_, fun ht hp => ?_⟩
  · rw [honly ht]
    exact ⟨⟨⟨List.prefix_rfl, honce⟩, hlisted⟩, fun _ => rfl, fun _ i hi => absurd hi (Finset.notMem_empty i)⟩
  · rw [honly ht] at hp
    cases hp

/-- whoever a received response lists is listed in what comes back -/
theorem Kept.received (hk : Kept handles request s) (hr : Received handles s t) :
    ∃ k, returned handles s = some k ∧ t.activity.trace.observers ⊆ k.observers := by
  induction hr with
  | @caller t ctx ht hresp =>
    refine ⟨ctx, by rw [returned, ht, Option.bind_some, hresp], ?_⟩
    rw [task_response_eq_trace hresp]
    exact List.Subset.refl _
  | @branch p h u t ctx hu _ ht hp hresp ih =>
    obtain ⟨k, hret, hsub⟩ := ih
    obtain ⟨_, v, hv, hl⟩ := hk.link ht hp
    obtain rfl : v = u := Option.some.inj (hv.symm.trans hu)
    refine ⟨k, hret, List.Subset.trans ?_ hsub⟩
    rw [← task_response_eq_trace hresp]
    exact hl.answered ctx hresp

theorem Kept.wellTraced (hk : Kept handles request s) (hret : returned handles s = some ctx) :
    WellTraced handles request s ctx := by
  obtain ⟨t, ht, hresp⟩ := Option.bind_eq_some_iff.mp hret
  have htraced := (hk.task ht).tracks.traced
  rw [← task_response_eq_trace hresp] at htraced
  refine ⟨htraced.pre, htraced.once, fun v p hv hp => ?_⟩
  obtain ⟨k, hret', hsub⟩ := hk.received hv
  obtain rfl : ctx = k := Option.some.inj (hret.symm.trans hret')
  cases hv with
  | caller hv _ => exact hsub ((hk.task hv).tracks.participant_mem hp)
  | branch _ _ hv _ _ => exact hsub ((hk.task hv).tracks.participant_mem hp)

end

/-! ## A worker alone -/

/-- one worker, with no peers and no leader -/
def alone (w : WorkerId) : Cluster where
  leader := ⟨none, ∅⟩
  workers := Finmap.singleton w (Forwarding.node ∅)

/-- no behavior is triggered -/
def idle : WorkerId → Option (List BehaviorHandle) := fun _ => some []

/-- the call comes, there is nobody to send it to, and it is answered -/
def comeAndGo : List Op := [.arrive 0 0, .sendLeader 0, .finish 0]

theorem localLinks_alone (w : WorkerId) : LocalLinks (alone w) := by
  refine ⟨fun v st p exec hst hl => ?_, fun r exec hl => absurd hl (by simp [alone])⟩
  obtain ⟨node, hnode, rfl⟩ := Option.map_eq_some_iff.mp hst
  have hmem : v ∈ (Finmap.singleton w (Forwarding.node ∅) : FnvHashMap WorkerId WorkerNode) :=
    Finmap.mem_iff.mpr ⟨node, hnode⟩
  obtain rfl := (Finmap.mem_singleton v w _).mp hmem
  have hnode' : (alone v).workers.lookup v = some node := hnode
  rw [alone, Finmap.lookup_singleton_eq] at hnode'
  rw [← Option.some.inj hnode'] at hl
  exact absurd hl (by simp [Forwarding.node])

/-- the context that the request handler of the entry worker gets -/
def atEntry (entry : WorkerId) (source : Inbox.Stream) (ctx : Context) : Context :=
  if source.registers then ctx.registerHop 0 (.worker entry) else ctx

theorem tasks_alone (entry : WorkerId) (source : Inbox.Stream) (ctx : Context) :
    (run (step (alone entry) idle []) (start (alone entry) entry source ctx) comeAndGo).tasks =
      [⟨none, .worker ⟨entry, atEntry entry source ctx, atEntry entry source ctx, ∅, false, [], []⟩, ∅,
        true⟩] := by
  have hst : (alone entry).stateOf entry = some (Forwarding.node ∅).state := by
    simp [Cluster.stateOf, alone]
  have hfresh : (seenOf (alone entry) entry).lookup ctx.id = none := by
    simp [seenOf, alone, Forwarding.node]
  have hhandled : (Inbox.receive entry 0 (seenOf (alone entry) entry) source ctx).2 =
      .handled (atEntry entry source ctx) := by
    have his := (Inbox.receive_fresh entry 0 source hfresh).1
    cases hout : (Inbox.receive entry 0 (seenOf (alone entry) entry) source ctx).2 with
    | handled k => rw [Inbox.receive_handled hout, atEntry]
    | rejected e => exact absurd his (by rw [hout]; simp [Inbox.Outcome.isHandled])
    | dropped => exact absurd his (by rw [hout]; simp [Inbox.Outcome.isHandled])
  have harrive : step (alone entry) idle [] (start (alone entry) entry source ctx) (.arrive 0 0) =
      ⟨Function.update (seenOf (alone entry)) entry
          (Inbox.receive entry 0 (seenOf (alone entry) entry) source ctx).1,
        [⟨none, .worker ⟨entry, atEntry entry source ctx, atEntry entry source ctx, ∅, true, [], []⟩, ∅, false⟩]⟩ := by
    simp [step, next, start, System.active, Option.filter, System.receive, hst, hhandled, begin, System.set,
      Forwarding.node, effects, idle]
  rw [comeAndGo, Core.run_cons, harrive]
  simp [step, next, System.active, Option.filter, System.ask, System.set, System.answer, System.tell,
    WorkerHandler.toLeader, hst, Forwarding.node, broadcastToLeader, WorkerHandler.Joined]

/-- what comes back from a worker alone -/
theorem returned_alone (entry : WorkerId) (source : Inbox.Stream) (ctx : Context) :
    let s := run (step (alone entry) idle []) (start (alone entry) entry source ctx) comeAndGo
    returned idle s = some (atEntry entry source ctx) ∧
      ∃ t, Received idle s t ∧ t.activity.participant = some (.worker entry) := by
  intro s
  have htask : s.tasks[0]? = some ⟨none, .worker ⟨entry, atEntry entry source ctx, atEntry entry source ctx, ∅, false,
      [], []⟩, ∅, true⟩ := by
    rw [tasks_alone]
    rfl
  refine ⟨?_, _, .caller htask rfl, rfl⟩
  rw [returned, htask]
  rfl

/-- **Hop lists.** What comes back for a call on a stream with single responses begins with the hops of the request,
lists no worker and not the leader twice, and lists everyone whose response was received, in every cluster of local
links and every run: exactly if the request lists nobody of the cluster twice, and lists the entry worker just when the
stream does not register it. -/
theorem well_traced_iff (entry : WorkerId) (source : Inbox.Stream) (_hsource : source.multi = false) (ctx : Context) :
    (∀ (c : Cluster) (handles : WorkerId → Option (List BehaviorHandle)) (events : List EventName), LocalLinks c →
      ∀ (ops : List Op) (k : Context),
        let s := run (step c handles events) (start c entry source ctx) ops
        returned handles s = some k → WellTraced handles ctx s k) ↔
      (∀ p : Participant, p.inCluster = true → ctx.observers.count p ≤ 1) ∧
        (source.registers = true ↔ .worker entry ∉ ctx.observers) := by
  constructor
  · intro h
    obtain ⟨hret, t, hr, hp⟩ := returned_alone entry source ctx
    have htraced := h (alone entry) idle [] (localLinks_alone entry) comeAndGo _ hret
    have hmem := htraced.all t _ hr hp
    refine ⟨fun p hp => ?_, fun hreg hin => ?_, fun hnot => ?_⟩
    · have hsub : ctx.observers.Sublist (atEntry entry source ctx).observers :=
        (htraced.pre.map NetworkHop.observer).sublist
      calc ctx.observers.count p ≤ (atEntry entry source ctx).observers.count p := hsub.count_le p
        _ ≤ 1 := htraced.once p hp
    · have honce := htraced.once (.worker entry) rfl
      rw [atEntry, if_pos hreg, Context.observers_registerHop, List.count_append, List.count_singleton_self] at honce
      exact absurd (List.count_pos_iff.mpr hin) (by omega)
    · by_contra hreg
      rw [atEntry, if_neg hreg] at hmem
      exact hnot hmem
  · rintro ⟨honce, hlisted⟩ c handles events hl ops k s hret
    have hstep : ∀ s o, Kept handles ctx s → Kept handles ctx (step c handles events s o) := fun _ o hk =>
      kept_step hl hk o
    have hkept : Kept handles ctx s := run_keeps hstep (kept_start honce hlisted) ops
    exact hkept.wellTraced hret

/-- in the triangle, the handlers go on until the call is answered -/
def answered : List Op :=
  [.finish 2, .send 1 0, .sendLeader 1, .trigger 1, .finish 1, .sendLeader 0, .trigger 0, .finish 0]

set_option maxRecDepth 4000 in
/-- worker 2 has handled the call twice, and is listed once -/
theorem well_traced_triangle :
    let s := run (step triangle idle ["e"]) (start triangle 0 .localStreams clientCall)
      (crossing ++ bothTrigger ++ answered)
    ∃ k, returned idle s = some k ∧ WellTraced idle clientCall s k := by
  intro s
  obtain ⟨k, hk⟩ := Option.isSome_iff_exists.mp (by decide : (returned idle s).isSome = true)
  refine ⟨k, hk, (well_traced_iff 0 .localStreams rfl clientCall).mpr ⟨fun p _ => ?_, ?_⟩ triangle idle ["e"]
    localLinks_triangle _ k hk⟩
  · exact Nat.zero_le 1
  · exact ⟨fun _ => List.not_mem_nil, fun _ => rfl⟩

/-- what a behavior calls with -/
def behaviorCall : Context := .new (.v4 7) 0 .behavior

/-- the call of a behavior comes back without the worker that has handled it -/
theorem behavior_not_listed : ¬ ∀ (c : Cluster) (handles : WorkerId → Option (List BehaviorHandle))
    (events : List EventName) (entry : WorkerId) (source : Inbox.Stream) (ctx : Context), LocalLinks c →
      source.multi = false → ∀ (ops : List Op) (k : Context),
        let s := run (step c handles events) (start c entry source ctx) ops
        returned handles s = some k → WellTraced handles ctx s k := by
  intro h
  obtain ⟨hret, t, hr, hp⟩ := returned_alone 0 .localBehaviorStream behaviorCall
  have htraced := h (alone 0) idle [] 0 .localBehaviorStream behaviorCall (localLinks_alone 0) rfl comeAndGo _ hret
  exact absurd (htraced.all t _ hr hp) (by simp [atEntry, Inbox.Stream.registers, behaviorCall, Context.new])

end Broadcast

end BigWorlds
