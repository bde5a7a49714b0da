/-
The invariant of a global `Invoke`.

Whoever a context names has handled the call, and so has every worker whose table of seen calls has it. A loop leaves
behind only workers that have the call or to which a signal is on its way. No worker has two handlers, as long as a
signal that comes to a worker which has handled the call does not get through (`Careful`). Whom a task waits for is a
task with a greater number that has not answered.

- `Inv`: the invariant; `Inv.set`: what a change of one task must keep of it;
- `inv_step`: every careful step keeps it.
-/
import BigWorlds.Broadcast.System

namespace BigWorlds.Broadcast

open BigWorlds.Core (Exec)
open Forwarding (broadcastTo broadcastToLeader workerBroadcastTo)

/-- a signal that comes to a worker which has handled the call does not get through -/
def Careful (s : System) : Op → Prop
  | .arrive h _ =>
    match (s.active h).map Task.activity with
    | some (.toWorker w source ctx) => s.Handles w → Inbox.passes (s.seen w) source ctx.id ctx.delivery = false
    | _ => True
  | _ => True

/-! ## Tasks -/

/-- the contexts that a task holds -/
def Activity.contexts : Activity → List Context
  | .toWorker _ _ ctx => [ctx]
  | .toLeader ctx => [ctx]
  | .worker x => [x.ctx, x.merged]
  | .leader x => [x.ctx]

def Task.FliesTo (t : Task) (w : WorkerId) : Prop := t.done = false ∧ ∃ source ctx, t.activity = .toWorker w source ctx

def Task.FliesToLeader (t : Task) : Prop := t.done = false ∧ ∃ ctx, t.activity = .toLeader ctx

namespace System

def LeaderHandles (s : System) : Prop := ∃ t ∈ s.tasks, t.activity.isLeader = true

/-- the call has come to worker `w`, or is on its way -/
def Covers (s : System) (w : WorkerId) : Prop := s.Handles w ∨ ∃ t ∈ s.tasks, t.FliesTo w

def CoversLeader (s : System) : Prop := s.LeaderHandles ∨ ∃ t ∈ s.tasks, t.FliesToLeader

theorem active_eq_some {s : System} {h : ℕ} {t : Task} :
    s.active h = some t ↔ s.tasks[h]? = some t ∧ t.done = false := by
  simp [active, Option.filter_eq_some_iff]

theorem mem_set {s : System} {h k : ℕ} {t t' u : Task} (ht : s.tasks[h]? = some t) :
    (s.set h t').tasks[k]? = some u ↔ (k = h ∧ u = t') ∨ (k ≠ h ∧ s.tasks[k]? = some u) := by
  obtain ⟨hlt, _⟩ := List.getElem?_eq_some_iff.mp ht
  by_cases hk : k = h
  · subst hk
    simp [set, hlt, eq_comm]
  · simp [set, List.getElem?_set_ne (Ne.symm hk), hk]

theorem mem_push {s : System} {k : ℕ} {t u : Task} :
    (s.push t).tasks[k]? = some u ↔ s.tasks[k]? = some u ∨ (k = s.tasks.length ∧ u = t) := by
  simp only [push, List.getElem?_append]
  split_ifs with hk
  · constructor
    · exact Or.inl
    · rintro (h | ⟨rfl, _⟩)
      · exact h
      · exact absurd hk (Nat.lt_irrefl _)
  · rw [List.getElem?_eq_none (Nat.le_of_not_lt hk)]
    constructor
    · intro h
      obtain ⟨hlt, heq⟩ := List.getElem?_eq_some_iff.mp h
      simp only [List.length_singleton] at hlt
      refine Or.inr ⟨by omega, ?_⟩
      simpa using heq.symm
    · rintro (h | ⟨rfl, rfl⟩)
      · exact absurd h (by simp)
      · simp

end System

section
variable {c : Cluster} {handles : WorkerId → Option (List BehaviorHandle)} {events : List EventName} {i : Uuid}
  {entry : WorkerId} {s s' : System} {h : ℕ} {t t' : Task}

/-! ## The invariant -/

/-- whom the context names has the call, or will have it -/
structure Good (c : Cluster) (i : Uuid) (s : System) (ctx : Context) : Prop where
  id : ctx.id = i
  workers : ∀ w ∈ c.workers.keys, ctx.wentThroughWorker w = true → s.Covers w
  leader : ctx.wentThroughLeader = true → s.LeaderHandles

/-- the loop has left behind only workers that have the call, or will have it -/
def Passed (c : Cluster) (s : System) : Activity → Prop
  | .worker x => ∀ st, c.stateOf x.worker = some st →
      (∀ p ∈ c.workers.keys, ∀ exec, st.otherWorkers.lookup p = some (.connected exec) → p ∈ x.peers ∨ s.Covers p) ∧
        ∀ exec, st.leader = .connected exec → x.leader = true ∨ s.CoversLeader
  | .leader x => ∀ r ∈ c.workers.keys, r ∈ c.leader.workers.keys → r ∈ x.workers ∨ s.Covers r
  | _ => True

/-- what is triggered and what is left make up the effects of `Invoke` -/
def Sound (handles : WorkerId → Option (List BehaviorHandle)) (events : List EventName) : Activity → Prop
  | .worker x => x.triggered ++ x.rest = effects events (handles x.worker)
  | _ => True

/-- nothing is left to do -/
def Over : Activity → Prop
  | .worker x => x.peers = ∅ ∧ x.leader = false ∧ x.rest = []
  | .leader x => x.workers = ∅
  | _ => True

structure Fine (c : Cluster) (handles : WorkerId → Option (List BehaviorHandle)) (events : List EventName) (i : Uuid)
    (s : System) (a : Activity) : Prop where
  good : ∀ ctx ∈ a.contexts, Good c i s ctx
  passed : Passed c s a
  sound : Sound handles events a

structure Inv (c : Cluster) (handles : WorkerId → Option (List BehaviorHandle)) (events : List EventName) (i : Uuid)
    (entry : WorkerId) (s : System) : Prop where
  seen : ∀ w ∈ c.workers.keys, i ∈ s.seen w → s.Handles w
  entry : s.Covers entry
  fine : ∀ t ∈ s.tasks, Fine c handles events i s t.activity
  ended : ∀ t ∈ s.tasks, t.done = true → Over t.activity
  unique : ∀ {h h' : ℕ} {t t' : Task} {w : WorkerId}, s.tasks[h]? = some t → s.tasks[h']? = some t' →
    t.activity.handlerAt = some w → t'.activity.handlerAt = some w → h = h'
  parent : ∀ {h : ℕ} {t : Task} {p : ℕ}, s.tasks[h]? = some t → t.parent = some p → p < h
  waits : ∀ {h : ℕ} {t : Task}, s.tasks[h]? = some t → ∀ j ∈ t.waiting,
    h < j ∧ ∃ u : Task, s.tasks[j]? = some u ∧ u.done = false ∧ u.parent = some h

/-! ## Growth -/

/-- whoever has the call, or will have it, still does -/
structure Grows (c : Cluster) (s s' : System) : Prop where
  handles : ∀ w, s.Handles w → s'.Handles w
  leader : s.LeaderHandles → s'.LeaderHandles
  covers : ∀ w ∈ c.workers.keys, s.Covers w → s'.Covers w
  coversLeader : s.CoversLeader → s'.CoversLeader

theorem Grows.trans {s'' : System} (g : Grows c s s') (g' : Grows c s' s'') : Grows c s s'' :=
  ⟨fun w h => g'.handles w (g.handles w h), fun h => g'.leader (g.leader h),
    fun w hw h => g'.covers w hw (g.covers w hw h), fun h => g'.coversLeader (g.coversLeader h)⟩

theorem Good.mono {ctx : Context} (h : Good c i s ctx) (g : Grows c s s') : Good c i s' ctx :=
  ⟨h.id, fun w hw hn => g.covers w hw (h.workers w hw hn), fun hn => g.leader (h.leader hn)⟩

theorem Passed.mono {a : Activity} (h : Passed c s a) (g : Grows c s s') : Passed c s' a := by
  cases a with
  | worker x =>
    intro st hst
    obtain ⟨hpeers, hleader⟩ := h st hst
    exact ⟨fun p hp exec hl => (hpeers p hp exec hl).imp_right (g.covers p hp),
      fun exec hl => (hleader exec hl).imp_right g.coversLeader⟩
  | leader x => exact fun r hr hl => (h r hr hl).imp_right (g.covers r hr)
  | _ => trivial

theorem Fine.mono {a : Activity} (h : Fine c handles events i s a) (g : Grows c s s') : Fine c handles events i s' a :=
  ⟨fun ctx hctx => (h.good ctx hctx).mono g, h.passed.mono g, h.sound⟩

/-- the other tasks are still there -/
theorem mem_set_or (ht : s.tasks[h]? = some t) (t' : Task) : ∀ u ∈ s.tasks, u ∈ (s.set h t').tasks ∨ u = t := by
  intro u hu
  obtain ⟨k, hk⟩ := List.mem_iff_getElem?.mp hu
  by_cases hkh : k = h
  · subst hkh
    exact Or.inr (Option.some.inj (hk.symm.trans ht))
  · exact Or.inl (List.mem_of_getElem? ((System.mem_set ht).mpr (Or.inr ⟨hkh, hk⟩)))

theorem mem_set_self (ht : s.tasks[h]? = some t) (t' : Task) : t' ∈ (s.set h t').tasks :=
  List.mem_of_getElem? ((System.mem_set ht).mpr (Or.inl ⟨rfl, rfl⟩))

theorem handles_set (ht : s.tasks[h]? = some t)
    (hhandler : ∀ w, t.activity.handlerAt = some w → t'.activity.handlerAt = some w) {w : WorkerId}
    (hw : s.Handles w) : (s.set h t').Handles w := by
  obtain ⟨u, hu, hw⟩ := hw
  rcases mem_set_or ht t' u hu with hu | rfl
  · exact ⟨u, hu, hw⟩
  · exact ⟨t', mem_set_self ht t', hhandler w hw⟩

/-- one task changes: its handler stays, and where it flew to is covered -/
theorem Grows.set (ht : s.tasks[h]? = some t)
    (hhandler : ∀ w, t.activity.handlerAt = some w → t'.activity.handlerAt = some w)
    (hleader : t.activity.isLeader = true → t'.activity.isLeader = true)
    (hflies : ∀ w ∈ c.workers.keys, t.FliesTo w → (s.set h t').Covers w)
    (hfliesLeader : t.FliesToLeader → (s.set h t').CoversLeader) : Grows c s (s.set h t') := by
  have hlead : s.LeaderHandles → (s.set h t').LeaderHandles := by
    rintro ⟨u, hu, hl⟩
    rcases mem_set_or ht t' u hu with hu | rfl
    · exact ⟨u, hu, hl⟩
    · exact ⟨t', mem_set_self ht t', hleader hl⟩
  refine ⟨fun w => handles_set ht hhandler, hlead, ?_, ?_⟩
  · rintro w hw (hw' | ⟨u, hu, hf⟩)
    · exact Or.inl (handles_set ht hhandler hw')
    · rcases mem_set_or ht t' u hu with hu | rfl
      · exact Or.inr ⟨u, hu, hf⟩
      · exact hflies w hw hf
  · rintro (hl | ⟨u, hu, hf⟩)
    · exact Or.inl (hlead hl)
    · rcases mem_set_or ht t' u hu with hu | rfl
      · exact Or.inr ⟨u, hu, hf⟩
      · exact hfliesLeader hf

theorem Grows.push (s : System) (t : Task) : Grows c s (s.push t) := by
  have hkeep : ∀ u ∈ s.tasks, u ∈ (s.push t).tasks := fun u hu => List.mem_append_left _ hu
  have hhandles : ∀ w, s.Handles w → (s.push t).Handles w := fun w ⟨u, hu, hw⟩ => ⟨u, hkeep u hu, hw⟩
  have hlead : s.LeaderHandles → (s.push t).LeaderHandles := fun ⟨u, hu, hl⟩ => ⟨u, hkeep u hu, hl⟩
  exact ⟨hhandles, hlead, fun w _ => Or.imp (hhandles w) fun ⟨u, hu, hf⟩ => ⟨u, hkeep u hu, hf⟩,
    Or.imp hlead fun ⟨u, hu, hf⟩ => ⟨u, hkeep u hu, hf⟩⟩

/-! ## What keeps the invariant -/

/-- one task changes -/
structure Change (c : Cluster) (handles : WorkerId → Option (List BehaviorHandle)) (events : List EventName) (i : Uuid)
    (s : System) (h : ℕ) (t t' : Task) : Prop where
  grows : Grows c s (s.set h t')
  new : ∀ w, t'.activity.handlerAt = some w → t.activity.handlerAt = some w ∨ ¬ s.Handles w
  fine : Fine c handles events i (s.set h t') t'.activity
  ended : t'.done = true → Over t'.activity
  parent : t'.parent = t.parent
  answers : t'.done = true → t.done = true ∨ ∀ u ∈ s.tasks, h ∉ u.waiting
  waits : ∀ j ∈ t'.waiting, h < j ∧ ∃ u : Task, s.tasks[j]? = some u ∧ u.done = false ∧ u.parent = some h

theorem Inv.set (hi : Inv c handles events i entry s) (hentry : entry ∈ c.workers.keys) (ht : s.tasks[h]? = some t)
    (ch : Change c handles events i s h t t') : Inv c handles events i entry (s.set h t') := by
  have hin : ∀ u ∈ (s.set h t').tasks, u = t' ∨ u ∈ s.tasks := by
    intro u hu
    obtain ⟨k, hk⟩ := List.mem_iff_getElem?.mp hu
    rcases (System.mem_set ht).mp hk with ⟨_, rfl⟩ | ⟨_, hk⟩
    · exact Or.inl rfl
    · exact Or.inr (List.mem_of_getElem? hk)
  -- who is waited for is still there and has not answered
  have hkeep : ∀ {g : ℕ} {v : Task}, s.tasks[g]? = some v → ∀ j ∈ v.waiting,
      ∀ u, s.tasks[j]? = some u → u.done = false →
        ∃ u' : Task, (s.set h t').tasks[j]? = some u' ∧ u'.done = false ∧ u'.parent = u.parent := by
    intro g v hv j hj u hu hd
    by_cases hjh : j = h
    · subst hjh
      obtain rfl : u = t := Option.some.inj (hu.symm.trans ht)
      refine ⟨t', (System.mem_set ht).mpr (Or.inl ⟨rfl, rfl⟩), ?_, ch.parent⟩
      by_contra hdone
      rcases ch.answers (by simpa using hdone) with hd' | hno
      · exact absurd (hd.symm.trans hd') (by simp)
      · exact hno v (List.mem_of_getElem? hv) hj
    · exact ⟨u, (System.mem_set ht).mpr (Or.inr ⟨hjh, hu⟩), hd, rfl⟩
  refine ⟨fun w hw hs => ch.grows.handles w (hi.seen w hw hs), ch.grows.covers _ hentry hi.entry, ?_, ?_, ?_, ?_, ?_⟩
  · intro u hu
    rcases hin u hu with rfl | hu
    · exact ch.fine
    · exact (hi.fine u hu).mono ch.grows
  · intro u hu hd
    rcases hin u hu with rfl | hu
    · exact ch.ended hd
    · exact hi.ended u hu hd
  · intro k k' u u' w hk hk' hw hw'
    -- a new handler is at a worker that had none
    have hold : ∀ {k : ℕ} {u : Task}, s.tasks[k]? = some u → u.activity.handlerAt = some w →
        t'.activity.handlerAt = some w → k = h := by
      intro k u hk hw hw'
      rcases ch.new w hw' with hold | hnot
      · exact hi.unique hk ht hw hold
      · exact absurd ⟨u, List.mem_of_getElem? hk, hw⟩ hnot
    rcases (System.mem_set ht).mp hk with ⟨rfl, rfl⟩ | ⟨_, hu⟩
    · rcases (System.mem_set ht).mp hk' with ⟨rfl, _⟩ | ⟨_, hu'⟩
      · rfl
      · exact (hold hu' hw' hw).symm
    · rcases (System.mem_set ht).mp hk' with ⟨rfl, rfl⟩ | ⟨_, hu'⟩
      · exact hold hu hw hw'
      · exact hi.unique hu hu' hw hw'
  · intro k u p hk hp
    rcases (System.mem_set ht).mp hk with ⟨rfl, rfl⟩ | ⟨_, hk⟩
    · exact hi.parent ht (ch.parent ▸ hp)
    · exact hi.parent hk hp
  · intro k v hk j hj
    rcases (System.mem_set ht).mp hk with ⟨rfl, rfl⟩ | ⟨_, hk⟩
    · obtain ⟨hlt, u, hu, hd, hp⟩ := ch.waits j hj
      have hne : j ≠ k := Nat.ne_of_gt hlt
      exact ⟨hlt, u, (System.mem_set ht).mpr (Or.inr ⟨hne, hu⟩), hd, hp⟩
    · obtain ⟨hlt, u, hu, hd, hp⟩ := hi.waits hk j hj
      obtain ⟨u', hu', hd', hp'⟩ := hkeep hk j hj u hu hd
      exact ⟨hlt, u', hu', hd', hp'.trans hp⟩

/-- a signal is sent -/
theorem Inv.push (hi : Inv c handles events i entry s) (hentry : entry ∈ c.workers.keys) {a : Activity}
    (hlt : h < s.tasks.length) (hgood : ∀ ctx ∈ a.contexts, Good c i s ctx) (hw : a.handlerAt = none)
    (hl : a.isLeader = false) : Inv c handles events i entry (s.push ⟨some h, a, ∅, false⟩) := by
  have g : Grows c s (s.push ⟨some h, a, ∅, false⟩) := Grows.push s _
  have hfine : Fine c handles events i (s.push ⟨some h, a, ∅, false⟩) a := by
    refine ⟨fun ctx hctx => (hgood ctx hctx).mono g, ?_, ?_⟩
    · cases a with
      | worker x => exact absurd hw (by simp [Activity.handlerAt])
      | leader x => exact absurd hl (by simp [Activity.isLeader])
      | _ => trivial
    · cases a with
      | worker x => exact absurd hw (by simp [Activity.handlerAt])
      | _ => trivial
  have hin : ∀ u ∈ (s.push ⟨some h, a, ∅, false⟩).tasks, u ∈ s.tasks ∨ u = ⟨some h, a, ∅, false⟩ := fun u hu =>
    (List.mem_append.mp hu).imp_right List.mem_singleton.mp
  refine ⟨fun w hw hs => g.handles w (hi.seen w hw hs), g.covers _ hentry hi.entry, ?_, ?_, ?_, ?_, ?_⟩
  · intro u hu
    rcases hin u hu with hu | rfl
    · exact (hi.fine u hu).mono g
    · exact hfine
  · intro u hu hd
    rcases hin u hu with hu | rfl
    · exact hi.ended u hu hd
    · exact absurd hd (by simp)
  · intro k k' u u' w hk hk' hu hu'
    rcases System.mem_push.1 hk with hk | ⟨_, rfl⟩
    · rcases System.mem_push.1 hk' with hk' | ⟨_, rfl⟩
      · exact hi.unique hk hk' hu hu'
      · exact absurd (hw.symm.trans hu') (by simp)
    · exact absurd (hw.symm.trans hu) (by simp)
  · intro k u p hk hp
    rcases System.mem_push.1 hk with hk | ⟨rfl, rfl⟩
    · exact hi.parent hk hp
    · obtain rfl : h = p := Option.some.inj hp
      exact hlt
  · intro k u hk j hj
    rcases System.mem_push.1 hk with hk | ⟨rfl, rfl⟩
    · obtain ⟨hkj, v, hv, hd, hp⟩ := hi.waits hk j hj
      exact ⟨hkj, v, System.mem_push.2 (Or.inl hv), hd, hp⟩
    · exact absurd hj (Finset.notMem_empty j)

/-- the table of a worker that has the call changes -/
theorem Inv.see (hi : Inv c handles events i entry s) {w : WorkerId} {calls : Inbox.SeenCalls}
    (hseen : i ∈ calls → i ∈ s.seen w ∨ s.Handles w) :
    Inv c handles events i entry { s with seen := Function.update s.seen w calls } := by
  have g : Grows c s { s with seen := Function.update s.seen w calls } :=
    ⟨fun _ h => h, fun h => h, fun _ _ h => h, fun h => h⟩
  refine ⟨fun v hv hin => ?_, hi.entry, fun t ht => (hi.fine t ht).mono g, hi.ended, hi.unique, hi.parent, hi.waits⟩
  have hin : i ∈ Function.update s.seen w calls v := hin
  by_cases hvw : v = w
  · subst hvw
    rw [Function.update_self] at hin
    rcases hseen hin with hin | hw
    · exact hi.seen v hv hin
    · exact hw
  · rw [Function.update_of_ne hvw] at hin
    exact hi.seen v hv hin

/-! ## Answers -/

theorem told_handlerAt (t : Task) (h : ℕ) (answer : Option Context) :
    (t.told h answer).activity.handlerAt = t.activity.handlerAt := by
  obtain ⟨parent, activity, waiting, done⟩ := t
  cases activity <;> cases answer <;> rfl

theorem told_isLeader (t : Task) (h : ℕ) (answer : Option Context) :
    (t.told h answer).activity.isLeader = t.activity.isLeader := by
  obtain ⟨parent, activity, waiting, done⟩ := t
  cases activity <;> cases answer <;> rfl

theorem told_over (t : Task) (h : ℕ) (answer : Option Context) : Over (t.told h answer).activity ↔ Over t.activity := by
  obtain ⟨parent, activity, waiting, done⟩ := t
  cases activity <;> cases answer <;> rfl

theorem told_fliesTo {h : ℕ} {answer : Option Context} {w : WorkerId} (hf : t.FliesTo w) :
    (t.told h answer).FliesTo w := by
  obtain ⟨hd, source, ctx, ha⟩ := hf
  exact ⟨hd, source, ctx, by simp [Task.told, ha]⟩

theorem told_fliesToLeader {h : ℕ} {answer : Option Context} (hf : t.FliesToLeader) :
    (t.told h answer).FliesToLeader := by
  obtain ⟨hd, ctx, ha⟩ := hf
  exact ⟨hd, ctx, by simp [Task.told, ha]⟩

/-- a context is good when its hops name only whom a good context names -/
theorem Good.hops {ctx ctx' : Context} {hops : List NetworkHop} (h : Good c i s ctx) (h' : Good c i s ctx')
    (hsub : ∀ hop ∈ hops, hop ∈ ctx.hops ∨ hop ∈ ctx'.hops) : Good c i s { ctx with hops } := by
  refine ⟨h.id, fun w hw hn => ?_, fun hn => ?_⟩
  · rcases (Context.wentThroughWorker_iff _ w).mp hn with ho | ho
    · exact h.workers w hw ((Context.wentThroughWorker_iff _ w).mpr (Or.inl ho))
    · obtain ⟨hop, hmem, hobs⟩ := List.mem_map.mp ho
      rcases hsub hop hmem with hm | hm
      · exact h.workers w hw ((Context.wentThroughWorker_iff _ w).mpr (Or.inr (List.mem_map.mpr ⟨hop, hm, hobs⟩)))
      · exact h'.workers w hw ((Context.wentThroughWorker_iff _ w).mpr (Or.inr (List.mem_map.mpr ⟨hop, hm, hobs⟩)))
  · rcases (Context.wentThroughLeader_iff _).mp hn with ho | ho
    · exact h.leader ((Context.wentThroughLeader_iff _).mpr (Or.inl ho))
    · obtain ⟨hop, hmem, hobs⟩ := List.mem_map.mp ho
      rcases hsub hop hmem with hm | hm
      · exact h.leader ((Context.wentThroughLeader_iff _).mpr (Or.inr (List.mem_map.mpr ⟨hop, hm, hobs⟩)))
      · exact h'.leader ((Context.wentThroughLeader_iff _).mpr (Or.inr (List.mem_map.mpr ⟨hop, hm, hobs⟩)))

theorem Good.mergeHops {ctx ctx' : Context} (h : Good c i s ctx) (h' : Good c i s ctx') :
    Good c i s (ctx.mergeHops ctx'.hops) :=
  h.hops h' fun _ hm => (List.mem_append.mp hm).imp_right List.mem_of_mem_drop

theorem mem_mergeHops {hops other : List NetworkHop} {hop : NetworkHop}
    (hm : hop ∈ other.foldl Context.mergeHop hops) : hop ∈ hops ∨ hop ∈ other := by
  induction other generalizing hops with
  | nil => exact Or.inl hm
  | cons o other ih =>
    rcases ih hm with hm | hm
    · unfold Context.mergeHop at hm
      split_ifs at hm with hany
      · exact Or.inl hm
      · rcases List.mem_append.mp hm with hm | hm
        · exact Or.inl hm
        · exact Or.inr (by rw [List.mem_singleton.mp hm]; exact List.mem_cons_self)
    · exact Or.inr (List.mem_cons_of_mem _ hm)

theorem Good.mergeHopsUnique {ctx ctx' : Context} (h : Good c i s ctx) (h' : Good c i s ctx') :
    Good c i s (ctx.mergeHopsUnique ctx'.hops) :=
  h.hops h' fun _ hm => mem_mergeHops hm

theorem Fine.told {answer : Option Context} (hf : Fine c handles events i s t.activity)
    (hgood : ∀ ctx, answer = some ctx → Good c i s ctx) (h : ℕ) :
    Fine c handles events i s (t.told h answer).activity := by
  obtain ⟨parent, activity, waiting, done⟩ := t
  cases answer with
  | none => cases activity <;> exact hf
  | some ctx =>
    have hctx := hgood ctx rfl
    cases activity with
    | worker x =>
      refine ⟨fun k hk => ?_, hf.passed, hf.sound⟩
      rcases List.mem_cons.mp hk with rfl | hk
      · exact hf.good _ List.mem_cons_self
      · obtain rfl := List.mem_singleton.mp hk
        exact (hf.good x.merged (List.mem_cons_of_mem _ List.mem_cons_self)).mergeHopsUnique hctx
    | leader x =>
      refine ⟨fun k hk => ?_, hf.passed, hf.sound⟩
      obtain rfl := List.mem_singleton.mp hk
      exact (hf.good x.ctx List.mem_cons_self).mergeHops hctx
    | _ => exact hf

/-- task `p` is told the answer of task `h` -/
theorem Inv.told (hi : Inv c handles events i entry s) (hentry : entry ∈ c.workers.keys) {p : ℕ} {u : Task}
    (hu : s.tasks[p]? = some u) (h : ℕ) {answer : Option Context} (hgood : ∀ ctx, answer = some ctx → Good c i s ctx) :
    Inv c handles events i entry (s.set p (u.told h answer)) ∧ Grows c s (s.set p (u.told h answer)) := by
  have hmem : u ∈ s.tasks := List.mem_of_getElem? hu
  have hmem' : u.told h answer ∈ (s.set p (u.told h answer)).tasks := mem_set_self hu _
  have g : Grows c s (s.set p (u.told h answer)) := by
    refine Grows.set hu (fun w hw => ?_) (fun hl => ?_) (fun w _ hf => ?_) (fun hf => ?_)
    · rw [told_handlerAt]
      exact hw
    · rw [told_isLeader]
      exact hl
    · exact Or.inr ⟨_, hmem', told_fliesTo hf⟩
    · exact Or.inr ⟨_, hmem', told_fliesToLeader hf⟩
  refine ⟨hi.set hentry hu ⟨g, fun w hw => ?_, ?_, fun hd => ?_, rfl, fun hd => Or.inl hd, fun j hj => ?_⟩, g⟩
  · rw [told_handlerAt] at hw
    exact Or.inl hw
  · exact ((hi.fine u hmem).told hgood h).mono g
  · exact (told_over u h answer).mpr (hi.ended u hmem hd)
  · exact hi.waits hu j (Finset.mem_of_mem_erase hj)

/-- after the answer is told nobody waits for it -/
theorem Inv.tell (hi : Inv c handles events i entry s) (hentry : entry ∈ c.workers.keys) (ht : s.tasks[h]? = some t)
    {answer : Option Context} (hgood : ∀ ctx, answer = some ctx → Good c i s ctx) {parent : Option ℕ}
    (hp : t.parent = parent) :
    Inv c handles events i entry (s.tell parent h answer) ∧ Grows c s (s.tell parent h answer) ∧
      (s.tell parent h answer).tasks[h]? = some t ∧ ∀ u ∈ (s.tell parent h answer).tasks, h ∉ u.waiting := by
  -- only its parent can have waited for it
  have hwaits : ∀ u ∈ s.tasks, h ∈ u.waiting → ∃ p, parent = some p ∧ s.tasks[p]? = some u := by
    intro u hu hw
    obtain ⟨k, hk⟩ := List.mem_iff_getElem?.mp hu
    obtain ⟨_, v, hv, _, hp'⟩ := hi.waits hk h hw
    obtain rfl : v = t := Option.some.inj (hv.symm.trans ht)
    exact ⟨k, hp.symm.trans hp', hk⟩
  have grefl : Grows c s s := ⟨fun _ h => h, fun h => h, fun _ _ h => h, fun h => h⟩
  cases parent with
  | none =>
    refine ⟨hi, grefl, ht, fun u hu hw => ?_⟩
    obtain ⟨p, hnone, _⟩ := hwaits u hu hw
    exact absurd hnone (by simp)
  | some p =>
    cases hu : s.tasks[p]? with
    | none =>
      have htell : s.tell (some p) h answer = s := by simp only [System.tell, hu]
      rw [htell]
      refine ⟨hi, grefl, ht, fun v hv hw => ?_⟩
      obtain ⟨p', hp', hv'⟩ := hwaits v hv hw
      obtain rfl : p = p' := Option.some.inj hp'
      exact absurd (hu.symm.trans hv') (by simp)
    | some u =>
      have htell : s.tell (some p) h answer = s.set p (u.told h answer) := by simp only [System.tell, hu]
      rw [htell]
      obtain ⟨hi', g⟩ := hi.told hentry hu h hgood
      have hne : h ≠ p := Nat.ne_of_gt (hi.parent ht hp)
      refine ⟨hi', g, (System.mem_set hu).mpr (Or.inr ⟨hne, ht⟩), fun v hv hw => ?_⟩
      obtain ⟨k, hk⟩ := List.mem_iff_getElem?.mp hv
      rcases (System.mem_set hu).mp hk with ⟨_, rfl⟩ | ⟨hkp, hk⟩
      · exact Finset.notMem_erase h u.waiting hw
      · obtain ⟨_, v', hv', _, hp'⟩ := hi.waits hk h hw
        obtain rfl : v' = t := Option.some.inj (hv'.symm.trans ht)
        exact hkp (Option.some.inj (hp'.symm.trans hp))

/-- a task answers: a rejected signal at a worker that has the call, or a handler that is through -/
theorem Inv.answer (hi : Inv c handles events i entry s) (hentry : entry ∈ c.workers.keys) (ht : s.tasks[h]? = some t)
    {answer : Option Context} (hgood : ∀ ctx, answer = some ctx → Good c i s ctx) (hover : Over t.activity)
    (hflies : ∀ w ∈ c.workers.keys, t.FliesTo w → s.Handles w) (hleader : ¬ t.FliesToLeader) :
    Inv c handles events i entry (s.answer h t answer) := by
  have hmem : t ∈ s.tasks := List.mem_of_getElem? ht
  obtain ⟨hi', g', ht', hno⟩ := hi.tell hentry ht hgood rfl
  have g : Grows c (s.tell t.parent h answer) (s.answer h t answer) := by
    refine Grows.set ht' (fun w hw => hw) (fun hl => hl) (fun w hw hf => Or.inl ?_) (fun hf => absurd hf hleader)
    obtain ⟨v, hv, hvw⟩ := g'.handles w (hflies w hw hf)
    obtain ⟨k, hk⟩ := List.mem_iff_getElem?.mp hv
    have hkh : k ≠ h := by
      rintro rfl
      obtain rfl : v = t := Option.some.inj (hk.symm.trans ht')
      obtain ⟨_, source, ctx, ha⟩ := hf
      exact absurd hvw (by simp [ha, Activity.handlerAt])
    exact ⟨v, List.mem_of_getElem? ((System.mem_set ht').mpr (Or.inr ⟨hkh, hk⟩)), hvw⟩
  exact hi'.set hentry ht' ⟨g, fun w hw => Or.inl hw, ((hi.fine t hmem).mono g').mono g, fun _ => hover, rfl,
    fun _ => Or.inr hno, fun j hj => hi'.waits ht' j hj⟩

/-! ## Sending -/

/-- a handler sends a signal, if there is one, and waits for its answer -/
theorem Inv.ask (hi : Inv c handles events i entry s) (hentry : entry ∈ c.workers.keys) (ht : s.tasks[h]? = some t)
    (hd : t.done = false) {a : Activity} (signal : Option Activity)
    (hsignal : ∀ b, signal = some b → (∀ ctx ∈ b.contexts, Good c i s ctx) ∧ b.handlerAt = none ∧ b.isLeader = false)
    (hhandler : a.handlerAt = t.activity.handlerAt) (hleader : a.isLeader = t.activity.isLeader)
    (hflies : ∀ w, ¬ t.FliesTo w) (hfliesLeader : ¬ t.FliesToLeader)
    (hfine : ∀ s' : System, Grows c s s' → (∀ b, signal = some b → ⟨some h, b, ∅, false⟩ ∈ s'.tasks) →
      Fine c handles events i s' a) :
    Inv c handles events i entry (s.ask h { t with activity := a } signal) := by
  cases signal with
  | none =>
    have g : Grows c s (s.set h { t with activity := a }) :=
      Grows.set ht (fun w hw => hhandler.trans hw) (fun hl => hleader.trans hl) (fun w _ hf => absurd hf (hflies w))
        (fun hf => absurd hf hfliesLeader)
    exact hi.set hentry ht ⟨g, fun w hw => Or.inl (hhandler.symm.trans hw), hfine _ g (by simp),
      fun hd' => absurd (hd.symm.trans hd') (by simp), rfl, fun hd' => Or.inl hd', fun j hj => hi.waits ht j hj⟩
  | some b =>
    obtain ⟨hgood, hb, hbl⟩ := hsignal b rfl
    have hlt : h < s.tasks.length := (List.getElem?_eq_some_iff.mp ht).1
    have hi' := hi.push hentry hlt hgood hb hbl
    have ht' : (s.push ⟨some h, b, ∅, false⟩).tasks[h]? = some t := System.mem_push.2 (Or.inl ht)
    let t' : Task := { t with activity := a, waiting := insert s.tasks.length t.waiting }
    have g' : Grows c (s.push ⟨some h, b, ∅, false⟩) ((s.push ⟨some h, b, ∅, false⟩).set h t') :=
      Grows.set ht' (fun w hw => hhandler.trans hw) (fun hl => hleader.trans hl) (fun w _ hf => absurd hf (hflies w))
        (fun hf => absurd hf hfliesLeader)
    have hnew : (⟨some h, b, ∅, false⟩ : Task) ∈ ((s.push ⟨some h, b, ∅, false⟩).set h t').tasks :=
      List.mem_of_getElem? ((System.mem_set ht').mpr
        (Or.inr ⟨Nat.ne_of_gt hlt, System.mem_push.2 (Or.inr ⟨rfl, rfl⟩)⟩))
    refine hi'.set hentry ht' ⟨g', fun w hw => Or.inl (hhandler.symm.trans hw), ?_,
      fun hd' => absurd (hd.symm.trans hd') (by simp), rfl, fun hd' => Or.inl hd', fun j hj => ?_⟩
    · refine hfine _ ((Grows.push s _).trans g') fun b' hb' => ?_
      obtain rfl : b = b' := Option.some.inj hb'
      exact hnew
    · rcases Finset.mem_insert.mp hj with rfl | hj
      · exact ⟨hlt, _, System.mem_push.2 (Or.inr ⟨rfl, rfl⟩), rfl, rfl⟩
      · exact hi'.waits ht' j hj

/-! ## What each operation does -/

theorem good_registerHop {ctx : Context} (hg : Good c i s ctx) (now : UInt64) {p : Participant}
    (hworker : ∀ w ∈ c.workers.keys, p = .worker w → s.Covers w) (hleader : p = .leader → s.LeaderHandles) :
    Good c i s (ctx.registerHop now p) := by
  refine ⟨hg.id, fun w hw hn => ?_, fun hn => ?_⟩
  · rcases (Context.wentThroughWorker_iff _ w).mp hn with ho | ho
    · exact hg.workers w hw ((Context.wentThroughWorker_iff _ w).mpr (Or.inl ho))
    · simp only [Context.registerHop, List.map_append, List.map_cons, List.map_nil, List.mem_append,
        List.mem_singleton] at ho
      rcases ho with ho | ho
      · exact hg.workers w hw ((Context.wentThroughWorker_iff _ w).mpr (Or.inr ho))
      · exact hworker w hw ho.symm
  · rcases (Context.wentThroughLeader_iff _).mp hn with ho | ho
    · exact hg.leader ((Context.wentThroughLeader_iff _).mpr (Or.inl ho))
    · simp only [Context.registerHop, List.map_append, List.map_cons, List.map_nil, List.mem_append,
        List.mem_singleton] at ho
      rcases ho with ho | ho
      · exact hg.leader ((Context.wentThroughLeader_iff _).mpr (Or.inr ho))
      · exact hleader ho.symm

theorem fliesTo_toWorker {w w' : WorkerId} {source : Inbox.Stream} {ctx : Context}
    (ha : t.activity = .toWorker w source ctx) (hf : t.FliesTo w') : w' = w := by
  obtain ⟨_, source', ctx', ha'⟩ := hf
  exact (Activity.toWorker.inj (ha.symm.trans ha')).1.symm

/-- the signal gets through at a worker that has not handled the call -/
theorem inv_begin (hi : Inv c handles events i entry s) (hentry : entry ∈ c.workers.keys) (ht : s.tasks[h]? = some t)
    (hd : t.done = false) {w : WorkerId} {source : Inbox.Stream} {ctx ctx' : Context}
    (ha : t.activity = .toWorker w source ctx) {st : WorkerState} (hst : c.stateOf w = some st) (now : UInt64)
    (hctx : ctx' = ctx ∨ ctx' = ctx.registerHop now (.worker w)) (hnot : ¬ s.Handles w) :
    let t' := { t with activity := .worker (begin handles events w st ctx') }
    Inv c handles events i entry (s.set h t') ∧ (s.set h t').Handles w := by
  intro t'
  have hmem : t' ∈ (s.set h t').tasks := mem_set_self ht t'
  have hw : (s.set h t').Handles w := ⟨t', hmem, rfl⟩
  have g : Grows c s (s.set h t') := by
    refine Grows.set ht (fun v hv => ?_) (fun hl => ?_) (fun v _ hf => ?_) (fun hf => ?_)
    · exact absurd hv (by simp [ha, Activity.handlerAt])
    · exact absurd hl (by simp [ha, Activity.isLeader])
    · obtain rfl := fliesTo_toWorker ha hf
      exact Or.inl hw
    · obtain ⟨_, k, hk⟩ := hf
      exact absurd (ha.symm.trans hk) (by simp)
  have hold : Good c i (s.set h t') ctx :=
    ((hi.fine t (List.mem_of_getElem? ht)).good ctx (by simp [ha, Activity.contexts])).mono g
  have hgood : Good c i (s.set h t') ctx' := by
    rcases hctx with rfl | rfl
    · exact hold
    · refine good_registerHop hold now (fun v _ hv => ?_) (fun hv => absurd hv (by simp))
      obtain rfl := Participant.worker.inj hv
      exact Or.inl hw
  refine ⟨hi.set hentry ht ⟨g, fun v hv => Or.inr ?_, ⟨fun k hk => ?_, fun st' hst' => ⟨fun p _ exec hl => ?_,
    fun _ _ => Or.inl rfl⟩, rfl⟩, fun hd' => absurd (hd.symm.trans hd') (by simp), rfl, fun hd' => Or.inl hd',
    fun j hj => hi.waits ht j hj⟩, hw⟩
  · obtain rfl : w = v := Option.some.inj hv
    exact hnot
  · obtain rfl : k = ctx' := by simpa [t', Activity.contexts, begin] using hk
    exact hgood
  · obtain rfl : st = st' := Option.some.inj (hst.symm.trans hst')
    exact Or.inl (FnvHashMap.mem_keys hl)

theorem inv_receive (hi : Inv c handles events i entry s) (hentry : entry ∈ c.workers.keys) (ht : s.tasks[h]? = some t)
    (hd : t.done = false) {w : WorkerId} {source : Inbox.Stream} {ctx : Context}
    (ha : t.activity = .toWorker w source ctx) (now : UInt64)
    (hc : s.Handles w → Inbox.passes (s.seen w) source ctx.id ctx.delivery = false) :
    Inv c handles events i entry (s.receive c handles events h t w source ctx now) := by
  have hover : Over t.activity := by rw [ha]; trivial
  have hleader : ¬ t.FliesToLeader := by
    rintro ⟨_, k, hk⟩
    exact absurd (ha.symm.trans hk) (by simp)
  have hid : ctx.id = i :=
    ((hi.fine t (List.mem_of_getElem? ht)).good ctx (by simp [ha, Activity.contexts])).id
  have hpasses := Inbox.receive_isHandled w now (s.seen w) source ctx
  unfold System.receive
  cases hst : c.stateOf w with
  | none =>
    -- the worker is gone
    refine hi.answer hentry ht (by simp) hover (fun v hv hf => ?_) hleader
    obtain rfl := fliesTo_toWorker ha hf
    obtain ⟨node, hnode⟩ := Finmap.mem_iff.mp (Finmap.mem_keys.mp hv)
    exact absurd hst (by simp [Cluster.stateOf, hnode])
  | some st =>
    have hrejected : (Inbox.receive w now (s.seen w) source ctx).2.isHandled = false → w ∈ c.workers.keys →
        s.Handles w := fun hno hw => hi.seen w hw (hid ▸ Inbox.mem_of_not_handled hno)
    have hkey : w ∈ c.workers.keys := by
      obtain ⟨node, hnode, _⟩ := Option.map_eq_some_iff.mp hst
      exact FnvHashMap.mem_keys hnode
    have hclose : (Inbox.receive w now (s.seen w) source ctx).2.isHandled = false →
        Inv c handles events i entry { s.answer h t none with
          seen := Function.update s.seen w (Inbox.receive w now (s.seen w) source ctx).1 } := by
      intro hno
      have hans := hi.answer hentry ht (by simp : ∀ k, (none : Option Context) = some k → Good c i s k) hover
        (fun v hv hf => by obtain rfl := fliesTo_toWorker ha hf; exact hrejected hno hv) hleader
      have hseen : (s.answer h t none).seen = s.seen := by
        unfold System.answer System.tell
        repeat' split
        all_goals rfl
      rw [← hseen]
      refine hans.see fun _ => Or.inl ?_
      rw [hseen]
      exact hid ▸ Inbox.mem_of_not_handled hno
    simp only
    cases ho : (Inbox.receive w now (s.seen w) source ctx).2 with
    | handled ctx' =>
      have hyes : Inbox.passes (s.seen w) source ctx.id ctx.delivery = true := by rw [← hpasses, ho]; rfl
      have hnot : ¬ s.Handles w := fun hw => absurd ((hc hw).symm.trans hyes) (by simp)
      have hctx : ctx' = ctx ∨ ctx' = ctx.registerHop now (.worker w) := by
        rw [Inbox.receive_handled ho]
        split_ifs
        · exact Or.inr rfl
        · exact Or.inl rfl
      obtain ⟨hinv, hw⟩ := inv_begin hi hentry ht hd ha hst now hctx hnot
      exact hinv.see fun _ => Or.inr hw
    | rejected e => exact hclose (by rw [ho]; rfl)
    | dropped => exact hclose (by rw [ho]; rfl)

theorem inv_beginLeader (hi : Inv c handles events i entry s) (hentry : entry ∈ c.workers.keys)
    (ht : s.tasks[h]? = some t) (hd : t.done = false) {ctx : Context} (ha : t.activity = .toLeader ctx) (now : UInt64) :
    Inv c handles events i entry
      (s.set h { t with activity := .leader ⟨ctx.registerHop now .leader, c.leader.workers.keys⟩ }) := by
  let t' : Task := { t with activity := .leader ⟨ctx.registerHop now .leader, c.leader.workers.keys⟩ }
  have hmem : t' ∈ (s.set h t').tasks := mem_set_self ht t'
  have hl : (s.set h t').LeaderHandles := ⟨t', hmem, rfl⟩
  have g : Grows c s (s.set h t') := by
    refine Grows.set ht (fun v hv => ?_) (fun hl => ?_) (fun v _ hf => ?_) (fun _ => Or.inl hl)
    · exact absurd hv (by simp [ha, Activity.handlerAt])
    · exact absurd hl (by simp [ha, Activity.isLeader])
    · obtain ⟨_, source, k, hk⟩ := hf
      exact absurd (ha.symm.trans hk) (by simp)
  have hgood : Good c i (s.set h t') (ctx.registerHop now .leader) := by
    have hold := ((hi.fine t (List.mem_of_getElem? ht)).good ctx (by simp [ha, Activity.contexts])).mono g
    exact good_registerHop hold now (fun v _ hv => absurd hv (by simp)) fun _ => hl
  refine hi.set hentry ht ⟨g, fun v hv => absurd hv (by simp [Activity.handlerAt]), ⟨fun k hk => ?_,
    fun r _ hr => Or.inl hr, trivial⟩, fun hd' => absurd (hd.symm.trans hd') (by simp), rfl, fun hd' => Or.inl hd',
    fun j hj => hi.waits ht j hj⟩
  obtain rfl := List.mem_singleton.mp hk
  exact hgood

/-- what is sent to a peer; when nothing is, the context names it, or it is not connected -/
theorem toPeer_some {x : WorkerHandler} {p : WorkerId} {b : Activity} (hb : x.toPeer c p = some b) :
    ∃ source, b = .toWorker p source x.ctx := by
  obtain ⟨exec, _, rfl⟩ := Option.map_eq_some_iff.mp hb
  exact ⟨_, rfl⟩

theorem toPeer_none {x : WorkerHandler} {p : WorkerId} (hb : x.toPeer c p = none) {st : WorkerState}
    (hst : c.stateOf x.worker = some st) {exec : Exec} (hl : st.otherWorkers.lookup p = some (.connected exec)) :
    x.ctx.wentThroughWorker p = true := by
  by_contra hn
  have hto : broadcastTo st x.ctx p = some exec := by simp [broadcastTo, hn, hl]
  simp [WorkerHandler.toPeer, hst, hto] at hb

theorem toLeader_some {x : WorkerHandler} {b : Activity} (hb : x.toLeader c = some b) : b = .toLeader x.ctx := by
  obtain ⟨exec, _, rfl⟩ := Option.map_eq_some_iff.mp hb
  rfl

theorem toLeader_none {x : WorkerHandler} (hb : x.toLeader c = none) {st : WorkerState}
    (hst : c.stateOf x.worker = some st) {exec : Exec} (hl : st.leader = .connected exec) :
    x.ctx.wentThroughLeader = true := by
  by_contra hn
  have hto : broadcastToLeader st x.ctx = some exec := by simp [broadcastToLeader, hn, hl]
  simp [WorkerHandler.toLeader, hst, hto] at hb

theorem toWorker_some {x : LeaderHandler} {p : WorkerId} {b : Activity} (hb : x.toWorker c p = some b) :
    ∃ source exec, b = .toWorker p source (Cluster.fromLeader exec x.ctx) := by
  obtain ⟨exec, _, rfl⟩ := Option.map_eq_some_iff.mp hb
  exact ⟨_, exec, rfl⟩

theorem toWorker_none {x : LeaderHandler} {p : WorkerId} (hb : x.toWorker c p = none)
    (hp : p ∈ c.leader.workers.keys) : x.ctx.wentThroughWorker p = true := by
  by_contra hn
  obtain ⟨exec, hl⟩ := Finmap.mem_iff.mp (Finmap.mem_keys.mp hp)
  simp [LeaderHandler.toWorker, workerBroadcastTo, hn, hl] at hb

theorem good_fromLeader {ctx : Context} (hg : Good c i s ctx) (hl : s.LeaderHandles) (exec : Exec) :
    Good c i s (Cluster.fromLeader exec ctx) := by
  cases exec with
  | «local» => exact hg
  | remote =>
    refine ⟨hg.id, fun w hw hn => ?_, fun _ => hl⟩
    rcases (Context.wentThroughWorker_iff _ w).mp hn with ho | ho
    · exact absurd ho (by simp [Cluster.fromLeader, Caller.id])
    · exact hg.workers w hw ((Context.wentThroughWorker_iff _ w).mpr (Or.inr ho))

/-- a task with a handler is no signal on its way -/
theorem flies_nowhere (hh : t.activity.handlerAt ≠ none ∨ t.activity.isLeader = true) :
    (∀ w, ¬ t.FliesTo w) ∧ ¬ t.FliesToLeader := by
  constructor
  · rintro w ⟨_, source, k, hk⟩
    exact absurd hh (by simp [hk, Activity.handlerAt, Activity.isLeader])
  · rintro ⟨_, k, hk⟩
    exact absurd hh (by simp [hk, Activity.handlerAt, Activity.isLeader])

theorem fliesTo_worker {x : WorkerHandler} (ha : t.activity = .worker x) :
    (∀ w, ¬ t.FliesTo w) ∧ ¬ t.FliesToLeader := flies_nowhere (Or.inl (by simp [ha, Activity.handlerAt]))

theorem fliesTo_leader {x : LeaderHandler} (ha : t.activity = .leader x) :
    (∀ w, ¬ t.FliesTo w) ∧ ¬ t.FliesToLeader := flies_nowhere (Or.inr (by simp [ha, Activity.isLeader]))

/-- the worker's loop comes to a peer -/
theorem inv_send (hi : Inv c handles events i entry s) (hentry : entry ∈ c.workers.keys) (ht : s.tasks[h]? = some t)
    (hd : t.done = false) {x : WorkerHandler} (ha : t.activity = .worker x) (p : WorkerId) :
    Inv c handles events i entry
      (s.ask h { t with activity := .worker { x with peers := x.peers.erase p } } (x.toPeer c p)) := by
  have hfine := hi.fine t (List.mem_of_getElem? ht)
  rw [ha] at hfine
  have hx : Good c i s x.ctx := hfine.good x.ctx List.mem_cons_self
  refine hi.ask hentry ht hd _ (fun b hb => ?_) (by rw [ha]; rfl) (by rw [ha]; rfl) (fliesTo_worker ha).1
    (fliesTo_worker ha).2 fun s' g hnew => ?_
  · obtain ⟨source, rfl⟩ := toPeer_some hb
    refine ⟨fun k hk => ?_, rfl, rfl⟩
    obtain rfl := List.mem_singleton.mp hk
    exact hx
  · refine ⟨fun k hk => (hfine.good k hk).mono g, fun st hst => ?_, hfine.sound⟩
    obtain ⟨hpeers, hleader⟩ := hfine.passed.mono g st hst
    refine ⟨fun q hq exec hl => ?_, hleader⟩
    by_cases hqp : q = p
    · subst hqp
      refine Or.inr ?_
      cases hb : x.toPeer c q with
      | none => exact g.covers q hq (hx.workers q hq (toPeer_none hb hst hl))
      | some b =>
        obtain ⟨source, rfl⟩ := toPeer_some hb
        exact Or.inr ⟨_, hnew _ hb, rfl, source, x.ctx, rfl⟩
    · exact (hpeers q hq exec hl).imp_left fun hm => Finset.mem_erase.mpr ⟨hqp, hm⟩

/-- the leader's turn -/
theorem inv_sendLeader (hi : Inv c handles events i entry s) (hentry : entry ∈ c.workers.keys)
    (ht : s.tasks[h]? = some t) (hd : t.done = false) {x : WorkerHandler} (ha : t.activity = .worker x) :
    Inv c handles events i entry
      (s.ask h { t with activity := .worker { x with leader := false } } (x.toLeader c)) := by
  have hfine := hi.fine t (List.mem_of_getElem? ht)
  rw [ha] at hfine
  have hx : Good c i s x.ctx := hfine.good x.ctx List.mem_cons_self
  refine hi.ask hentry ht hd _ (fun b hb => ?_) (by rw [ha]; rfl) (by rw [ha]; rfl) (fliesTo_worker ha).1
    (fliesTo_worker ha).2 fun s' g hnew => ?_
  · obtain rfl := toLeader_some hb
    refine ⟨fun k hk => ?_, rfl, rfl⟩
    obtain rfl := List.mem_singleton.mp hk
    exact hx
  · refine ⟨fun k hk => (hfine.good k hk).mono g, fun st hst => ?_, hfine.sound⟩
    refine ⟨(hfine.passed.mono g st hst).1, fun exec hl => Or.inr ?_⟩
    cases hb : x.toLeader c with
    | none => exact g.coversLeader (Or.inl (hx.leader (toLeader_none hb hst hl)))
    | some b =>
      obtain rfl := toLeader_some hb
      exact Or.inr ⟨_, hnew _ hb, rfl, x.ctx, rfl⟩

/-- the leader's loop comes to a worker -/
theorem inv_sendWorker (hi : Inv c handles events i entry s) (hentry : entry ∈ c.workers.keys)
    (ht : s.tasks[h]? = some t) (hd : t.done = false) {x : LeaderHandler} (ha : t.activity = .leader x) (p : WorkerId) :
    Inv c handles events i entry
      (s.ask h { t with activity := .leader { x with workers := x.workers.erase p } } (x.toWorker c p)) := by
  have hmem : t ∈ s.tasks := List.mem_of_getElem? ht
  have hfine := hi.fine t hmem
  rw [ha] at hfine
  have hx : Good c i s x.ctx := hfine.good x.ctx List.mem_cons_self
  refine hi.ask hentry ht hd _ (fun b hb => ?_) (by rw [ha]; rfl) (by rw [ha]; rfl) (fliesTo_leader ha).1
    (fliesTo_leader ha).2 fun s' g hnew => ?_
  · obtain ⟨source, exec, rfl⟩ := toWorker_some hb
    refine ⟨fun k hk => ?_, rfl, rfl⟩
    obtain rfl := List.mem_singleton.mp hk
    exact good_fromLeader hx ⟨t, hmem, by rw [ha]; rfl⟩ exec
  · refine ⟨fun k hk => (hfine.good k hk).mono g, fun r hr hl => ?_, trivial⟩
    by_cases hrp : r = p
    · subst hrp
      refine Or.inr ?_
      cases hb : x.toWorker c r with
      | none => exact g.covers r hr (hx.workers r hr (toWorker_none hb hl))
      | some b =>
        obtain ⟨source, exec, rfl⟩ := toWorker_some hb
        exact Or.inr ⟨_, hnew _ hb, rfl, source, _, rfl⟩
    · exact (hfine.passed.mono g r hr hl).imp_left fun hm => Finset.mem_erase.mpr ⟨hrp, hm⟩

/-- the next event is triggered -/
theorem inv_trigger (hi : Inv c handles events i entry s) (hentry : entry ∈ c.workers.keys) (ht : s.tasks[h]? = some t)
    (hd : t.done = false) {x : WorkerHandler} (ha : t.activity = .worker x) {e : Effect} {rest : List Effect}
    (hrest : x.rest = e :: rest) :
    Inv c handles events i entry
      (s.set h { t with activity := .worker { x with triggered := x.triggered ++ [e], rest } }) := by
  have hfine := hi.fine t (List.mem_of_getElem? ht)
  rw [ha] at hfine
  have hsound : x.triggered ++ x.rest = effects events (handles x.worker) := hfine.sound
  have hself : Inv c handles events i entry
      (s.ask h { t with activity := .worker { x with triggered := x.triggered ++ [e], rest } } none) := by
    refine hi.ask hentry ht hd none (by simp) (by rw [ha]; rfl) (by rw [ha]; rfl) (fliesTo_worker ha).1
      (fliesTo_worker ha).2 fun s' g _ => ⟨fun k hk => (hfine.good k hk).mono g, hfine.passed.mono g, ?_⟩
    calc (x.triggered ++ [e]) ++ rest = x.triggered ++ x.rest := by rw [hrest, List.append_assoc, List.singleton_append]
      _ = effects events (handles x.worker) := hsound
  exact hself

/-- what an operation on task `h`, which is `t`, can be -/
inductive Happens (c : Cluster) (handles : WorkerId → Option (List BehaviorHandle)) (events : List EventName)
    (s : System) (h : ℕ) (t : Task) : Op → System → Prop
  | arrive {w : WorkerId} {source : Inbox.Stream} {ctx : Context} (now : UInt64) :
      t.activity = .toWorker w source ctx →
      Happens c handles events s h t (.arrive h now) (s.receive c handles events h t w source ctx now)
  | arriveLeader {ctx : Context} (now : UInt64) :
      t.activity = .toLeader ctx →
      Happens c handles events s h t (.arrive h now)
        (s.set h { t with activity := .leader ⟨ctx.registerHop now .leader, c.leader.workers.keys⟩ })
  | send {x : WorkerHandler} {p : WorkerId} :
      t.activity = .worker x → p ∈ x.peers →
      Happens c handles events s h t (.send h p)
        (s.ask h { t with activity := .worker { x with peers := x.peers.erase p } } (x.toPeer c p))
  | sendWorker {x : LeaderHandler} {p : WorkerId} :
      t.activity = .leader x → p ∈ x.workers →
      Happens c handles events s h t (.send h p)
        (s.ask h { t with activity := .leader { x with workers := x.workers.erase p } } (x.toWorker c p))
  | sendLeader {x : WorkerHandler} :
      t.activity = .worker x → x.leader = true →
      Happens c handles events s h t (.sendLeader h)
        (s.ask h { t with activity := .worker { x with leader := false } } (x.toLeader c))
  | trigger {x : WorkerHandler} {e : Effect} {rest : List Effect} :
      t.activity = .worker x → x.rest = e :: rest →
      Happens c handles events s h t (.trigger h)
        (s.set h { t with activity := .worker { x with triggered := x.triggered ++ [e], rest } })
  | finish {x : WorkerHandler} :
      t.activity = .worker x → x.Joined t → x.rest = [] →
      Happens c handles events s h t (.finish h) (s.answer h t ((handles x.worker).map fun _ => x.merged))
  | finishLeader {x : LeaderHandler} :
      t.activity = .leader x → x.workers = ∅ →
      Happens c handles events s h t (.finish h) (s.answer h t (some x.ctx))

theorem next_cases {o : Op} (hn : next c handles events s o = some s') :
    ∃ h t, s.active h = some t ∧ Happens c handles events s h t o s' := by
  cases o with
  | arrive h now =>
    simp only [next] at hn
    split at hn
    · rename_i t hact
      refine ⟨h, t, hact, ?_⟩
      split at hn
      · rename_i ha
        exact Option.some.inj hn ▸ .arrive now ha
      · rename_i ha
        exact Option.some.inj hn ▸ .arriveLeader now ha
      · cases hn
    · cases hn
  | send h p =>
    simp only [next] at hn
    split at hn
    · rename_i t hact
      refine ⟨h, t, hact, ?_⟩
      split at hn
      · rename_i ha
        split_ifs at hn with hp
        exact Option.some.inj hn ▸ .send ha hp
      · rename_i ha
        split_ifs at hn with hp
        exact Option.some.inj hn ▸ .sendWorker ha hp.1
      · cases hn
    · cases hn
  | sendLeader h =>
    simp only [next] at hn
    split at hn
    · rename_i t hact
      refine ⟨h, t, hact, ?_⟩
      split at hn
      · rename_i ha
        split_ifs at hn with hl
        exact Option.some.inj hn ▸ .sendLeader ha hl.2
      · cases hn
    · cases hn
  | trigger h =>
    simp only [next] at hn
    split at hn
    · rename_i t hact
      refine ⟨h, t, hact, ?_⟩
      split at hn
      · rename_i ha
        split at hn
        · rename_i hrest
          split_ifs at hn
          exact Option.some.inj hn ▸ .trigger ha hrest
        · cases hn
      · cases hn
    · cases hn
  | finish h =>
    simp only [next] at hn
    split at hn
    · rename_i t hact
      refine ⟨h, t, hact, ?_⟩
      split at hn
      · rename_i ha
        split_ifs at hn with hj
        exact Option.some.inj hn ▸ .finish ha hj.1 hj.2
      · rename_i ha
        split_ifs at hn with hw
        exact Option.some.inj hn ▸ .finishLeader ha hw.1
      · cases hn
    · cases hn

/-- the context of an answer is good -/
theorem good_merged {x : WorkerHandler} (hi : Inv c handles events i entry s) (ht : s.tasks[h]? = some t)
    (ha : t.activity = .worker x) :
    ∀ ctx, ((handles x.worker).map fun _ => x.merged) = some ctx → Good c i s ctx := by
  intro ctx hctx
  have hfine := hi.fine t (List.mem_of_getElem? ht)
  rw [ha] at hfine
  obtain ⟨_, _, rfl⟩ := Option.map_eq_some_iff.mp hctx
  exact hfine.good _ (List.mem_cons_of_mem _ List.mem_cons_self)

theorem good_leader {x : LeaderHandler} (hi : Inv c handles events i entry s) (ht : s.tasks[h]? = some t)
    (ha : t.activity = .leader x) : ∀ ctx, some x.ctx = some ctx → Good c i s ctx := by
  intro ctx hctx
  have hfine := hi.fine t (List.mem_of_getElem? ht)
  rw [ha] at hfine
  obtain rfl := Option.some.inj hctx
  exact hfine.good _ List.mem_cons_self

/-- **One step.** -/
theorem inv_step (hi : Inv c handles events i entry s) (hentry : entry ∈ c.workers.keys) (o : Op) (hc : Careful s o) :
    Inv c handles events i entry (step c handles events s o) := by
  unfold step
  cases hn : next c handles events s o with
  | none => exact hi
  | some s' =>
    obtain ⟨h, t, hact, hh⟩ := next_cases hn
    obtain ⟨ht, hd⟩ := System.active_eq_some.1 hact
    rw [Option.getD_some]
    cases hh with
    | arrive now ha => exact inv_receive hi hentry ht hd ha now (by simpa [Careful, hact, ha] using hc)
    | arriveLeader now ha => exact inv_beginLeader hi hentry ht hd ha now
    | send ha _ => exact inv_send hi hentry ht hd ha _
    | sendWorker ha _ => exact inv_sendWorker hi hentry ht hd ha _
    | sendLeader ha _ => exact inv_sendLeader hi hentry ht hd ha
    | trigger ha hrest => exact inv_trigger hi hentry ht hd ha hrest
    | finish ha hj hrest =>
      refine hi.answer hentry ht (good_merged hi ht ha) ?_ (fun w _ hf => absurd hf ((fliesTo_worker ha).1 w))
        (fliesTo_worker ha).2
      rw [ha]
      exact ⟨hj.1, hj.2.1, hrest⟩
    | finishLeader ha hw =>
      refine hi.answer hentry ht (good_leader hi ht ha) ?_ (fun w _ hf => absurd hf ((fliesTo_leader ha).1 w))
        (fliesTo_leader ha).2
      rw [ha]
      exact hw

end

end BigWorlds.Broadcast
