/-
Restarting behaviors when the model changes (`worker/mod.rs`, the arm of `SetModel`; `behavior/lua.rs`).

The handler shuts the task of each handle of a changed behavior down and adds the handle of a new task, which it binds
to the worker. The old handle stays where it was, so the handle of a finished task is left behind, and the next change
of the behavior fails on it.

- `restartAll_finished`: a swap that succeeds leaves each handle of a changed behavior, and its task is finished;
- `hot_swap_iff`: along a run the swaps do what they should exactly if no changed behavior has a handle;
- `swap_leaves_finished`: a ball that gets another script.

The tasks are those of Lua behaviors: they answer `Shutdown` and end. `loads` is whether Lua loads a script; a task
whose script it does not load ends at once. The logic of a machine is made from its script.
-/
import BigWorlds.Core.Run
import BigWorlds.Worker.Partition

namespace BigWorlds.HotSwap

/-! ## The worker -/

inductive BehaviorInner where
  | machine (script : String)
  | lua (synced : Bool) (script : String)
  | dynlib (artifact : List UInt8) (entry : String) (synced debug : Bool)
  | wasm (artifact : List UInt8) (synced debug : Bool)
deriving DecidableEq, Repr

/-- `model::Behavior` with all the fields that are compared -/
structure Behavior where
  name : String
  triggers : List EventName
  targets : List InstancingTarget
  tracing : String
  inner : BehaviorInner
deriving DecidableEq, Repr

/-- a handle and the number of its task -/
structure Handle where
  name : String
  triggers : List EventName
  task : ℕ
deriving DecidableEq, Repr

/-- a Lua task: its script, what it is bound to, and whether it still runs -/
structure Task where
  script : String
  target : BehaviorTarget
  live : Bool
deriving DecidableEq, Repr

/-- `model` holds the behaviors of the model, `behaviors` the handles on the partition, if there is one -/
structure Worker where
  behaviorsFollowModelChanges : Bool
  model : Option (List Behavior)
  behaviors : Option (FnvHashMap BehaviorTarget (List Handle))
  tasks : List Task
deriving DecidableEq

inductive Failure where
  | noPartition
  | receiverDropped
  | panic
deriving DecidableEq, Repr

/-! ## The handler -/

/-- the behavior of that name -/
def named (name : String) (behaviors : List Behavior) : Option Behavior := behaviors.find? fun b => b.name = name

/-- the names of the behaviors that the new model has in another form -/
def changedBehaviors (current new : List Behavior) : List String :=
  (current.filter fun b => (named b.name new).any fun b' => b ≠ b').map Behavior.name

/-- the order in which the targets of handles are iterated -/
structure TargetOrder where
  targets : FnvHashMap BehaviorTarget (List Handle) → List BehaviorTarget
  complete : ∀ map, (targets map : Multiset BehaviorTarget) = map.keys.val

/-- the handles of changed behaviors, once for each change of that name -/
def handlesToRestart (order : TargetOrder) (map : FnvHashMap BehaviorTarget (List Handle))
    (current new : List Behavior) : List Handle :=
  let handles := (order.targets map).flatMap fun target => (map.lookup target).getD []
  (changedBehaviors current new).flatMap fun name => handles.filter (·.name = name)

namespace Worker

/-- the arm of `AddBehavior` in the manager -/
def addBehavior (w : Worker) (target : BehaviorTarget) (h : Handle) : Worker × Except Failure Unit :=
  match w.behaviors with
  | some map => ({ w with behaviors := some (map.insert target ((map.lookup target).getD [] ++ [h])) }, .ok ())
  | none => (w, .error .noPartition)

/-- `lua::spawn`: a new task, and the handle of it -/
def spawn (loads : String → Bool) (w : Worker) (name : String) (triggers : List EventName) (script : String)
    (target : BehaviorTarget) : Worker × Handle :=
  ({ w with tasks := w.tasks ++ [⟨script, target, loads script⟩] }, ⟨name, triggers, w.tasks.length⟩)

/-- the task is there and has not ended -/
def Live (w : Worker) (task : ℕ) : Prop := ∃ t, w.tasks[task]? = some t ∧ t.live = true

/-- `Shutdown`: a task that has ended has dropped its receiver -/
def shutdown (w : Worker) (task : ℕ) : Worker × Except Failure Unit :=
  match w.tasks[task]? with
  | some t =>
    if t.live then ({ w with tasks := w.tasks.set task { t with live := false } }, .ok ())
    else (w, .error .receiverDropped)
  | none => (w, .error .receiverDropped)

/-- a new task with the script of the new model, bound to the worker -/
def respawn (loads : String → Bool) (new : List Behavior) (w : Worker) (name : String) : Worker × Except Failure Unit :=
  match named name new with
  | some b =>
    match b.inner with
    | .lua _ script =>
      let spawned := w.spawn loads name b.triggers script .worker
      spawned.1.addBehavior .worker spawned.2
    | _ => (w, .error .panic)
  | none => (w, .ok ())

/-- the body of the loop over the handles of a changed behavior -/
def restart (loads : String → Bool) (new : List Behavior) (w : Worker) (h : Handle) : Worker × Except Failure Unit :=
  match w.shutdown h.task with
  | (w, .error e) => (w, .error e)
  | (w, .ok ()) => w.respawn loads new h.name

def restartAll (loads : String → Bool) (new : List Behavior) (w : Worker) :
    List Handle → Worker × Except Failure Unit
  | [] => (w, .ok ())
  | h :: hs =>
    match w.restart loads new h with
    | (w, .ok ()) => restartAll loads new w hs
    | (w, .error e) => (w, .error e)

/-- the arm of `SetModel` -/
def setModel (loads : String → Bool) (order : TargetOrder) (new : List Behavior) (w : Worker) :
    Worker × Except Failure Unit :=
  match w.model with
  | some current =>
    if w.behaviorsFollowModelChanges then
      match w.behaviors with
      | some map =>
        match w.restartAll loads new (handlesToRestart order map current new) with
        | (w, .ok ()) => ({ w with model := some new }, .ok ())
        | (w, .error e) => (w, .error e)
      | none => (w, .error .noPartition)
    else ({ w with model := some new }, .ok ())
  | none => ({ w with model := some new }, .ok ())

def handlesOn (w : Worker) (target : BehaviorTarget) : List Handle := ((w.behaviors.getD ∅).lookup target).getD []

/-! ## What restarting leaves -/

/-- handles stay, and a task that has ended does not come back -/
structure Grows (w w' : Worker) : Prop where
  handles : ∀ target h, h ∈ w.handlesOn target → h ∈ w'.handlesOn target
  ended : ∀ task, task < w.tasks.length → ¬ w.Live task → ¬ w'.Live task
  tasks : w.tasks.length ≤ w'.tasks.length

theorem Grows.refl (w : Worker) : Grows w w := ⟨fun _ _ h => h, fun _ _ h => h, Nat.le_refl _⟩

theorem Grows.trans {u v w : Worker} (h : Grows u v) (h' : Grows v w) : Grows u w :=
  ⟨fun target handle hin => h'.handles target handle (h.handles target handle hin),
    fun task hlt hended => h'.ended task (Nat.lt_of_lt_of_le hlt h.tasks) (h.ended task hlt hended),
    Nat.le_trans h.tasks h'.tasks⟩

theorem shutdown_grows (w : Worker) (task : ℕ) : Grows w (w.shutdown task).1 := by
  unfold shutdown
  cases ht : w.tasks[task]? with
  | none => exact Grows.refl w
  | some t =>
    cases hlive : t.live with
    | false => simpa [hlive] using Grows.refl w
    | true =>
      refine ⟨fun _ _ h => by simpa [hlive, handlesOn] using h, fun other _ hended => ?_, by simp [hlive]⟩
      rintro ⟨t', ht', hlive'⟩
      simp only [hlive, if_true, List.getElem?_set] at ht'
      split_ifs at ht' with heq hlt
      · obtain rfl := Option.some.inj ht'
        cases hlive'
      · exact hended ⟨t', ht', hlive'⟩

theorem shutdown_ended {w : Worker} {task : ℕ} (h : (w.shutdown task).2 = .ok ()) :
    task < w.tasks.length ∧ ¬ (w.shutdown task).1.Live task := by
  unfold shutdown at h ⊢
  cases ht : w.tasks[task]? with
  | none => simp [ht] at h
  | some t =>
    have hlt : task < w.tasks.length := (List.getElem?_eq_some_iff.mp ht).1
    cases hlive : t.live with
    | false => simp [ht, hlive] at h
    | true =>
      refine ⟨hlt, fun ⟨t', ht', hlive'⟩ => ?_⟩
      simp only [hlive, if_true, List.getElem?_set, hlt] at ht'
      obtain rfl := Option.some.inj ht'
      cases hlive'

theorem spawn_grows (loads : String → Bool) (w : Worker) (name : String) (triggers : List EventName) (script : String)
    (target : BehaviorTarget) : Grows w (w.spawn loads name triggers script target).1 := by
  refine ⟨fun _ _ h => h, fun task hlt hended => ?_, by simp [spawn]⟩
  rintro ⟨t, ht, hlive⟩
  simp only [spawn, List.getElem?_append_left hlt] at ht
  exact hended ⟨t, ht, hlive⟩

theorem addBehavior_grows (w : Worker) (target : BehaviorTarget) (h : Handle) :
    Grows w (w.addBehavior target h).1 := by
  unfold addBehavior
  cases hmap : w.behaviors with
  | none => exact Grows.refl w
  | some map =>
    refine ⟨fun other handle hin => ?_, fun _ _ hended => hended, Nat.le_refl _⟩
    unfold handlesOn at hin ⊢
    rw [hmap] at hin
    by_cases hother : other = target
    · subst hother
      simp only [Option.getD_some, Finmap.lookup_insert] at hin ⊢
      exact List.mem_append_left _ hin
    · simpa [Finmap.lookup_insert_of_ne _ hother] using hin

theorem respawn_grows (loads : String → Bool) (new : List Behavior) (w : Worker) (name : String) :
    Grows w (w.respawn loads new name).1 := by
  unfold respawn
  cases named name new with
  | none => exact Grows.refl w
  | some b =>
    dsimp only
    cases b.inner with
    | lua synced script =>
      exact (spawn_grows loads w name b.triggers script .worker).trans (addBehavior_grows _ _ _)
    | _ => exact Grows.refl w

theorem restart_grows (loads : String → Bool) (new : List Behavior) (w : Worker) (h : Handle) :
    Grows w (w.restart loads new h).1 := by
  have hshut := shutdown_grows w h.task
  unfold restart
  split <;> rename_i heq <;> rw [heq] at hshut
  · exact hshut
  · exact hshut.trans (respawn_grows loads new _ h.name)

theorem restart_ended {loads : String → Bool} {new : List Behavior} {w : Worker} {h : Handle}
    (hok : (w.restart loads new h).2 = .ok ()) :
    h.task < w.tasks.length ∧ ¬ (w.restart loads new h).1.Live h.task := by
  have hshut := shutdown_grows w h.task
  have hended := @shutdown_ended w h.task
  unfold restart at hok ⊢
  split at hok
  · cases hok
  · rename_i w' heq
    rw [heq] at hshut hended
    obtain ⟨hlt, hdead⟩ := hended rfl
    exact ⟨hlt, (respawn_grows loads new w' h.name).ended _ (Nat.lt_of_lt_of_le hlt hshut.tasks) hdead⟩

theorem restartAll_grows (loads : String → Bool) (new : List Behavior) (w : Worker) (hs : List Handle) :
    Grows w (w.restartAll loads new hs).1 := by
  induction hs generalizing w with
  | nil => exact Grows.refl w
  | cons h hs ih =>
    have hstep := restart_grows loads new w h
    unfold restartAll
    split <;> rename_i heq <;> rw [heq] at hstep
    · exact hstep.trans (ih _)
    · exact hstep

/-- **What a swap leaves.** The handles stay, and where all restarts succeed their tasks have ended. -/
theorem restartAll_finished {loads : String → Bool} {new : List Behavior} {w : Worker} {hs : List Handle}
    (hok : (w.restartAll loads new hs).2 = .ok ()) {h : Handle} (hin : h ∈ hs) :
    ¬ (w.restartAll loads new hs).1.Live h.task := by
  induction hs generalizing w with
  | nil => cases hin
  | cons h' hs ih =>
    have hended := @restart_ended loads new w h'
    have hgrows := restart_grows loads new w h'
    unfold restartAll at hok ⊢
    split at hok
    · rename_i w' heq
      rw [heq] at hended hgrows
      obtain ⟨hlt, hdead⟩ := hended rfl
      rcases List.mem_cons.mp hin with rfl | hin
      · exact (restartAll_grows loads new w' hs).ended _ (Nat.lt_of_lt_of_le hlt hgrows.tasks) hdead
      · exact ih hok hin
    · cases hok

theorem setModel_grows (loads : String → Bool) (order : TargetOrder) (new : List Behavior) (w : Worker) :
    Grows w (w.setModel loads order new).1 := by
  have hmodel : ∀ w' : Worker, Grows w w' → Grows w { w' with model := some new } :=
    fun w' h => ⟨h.handles, h.ended, h.tasks⟩
  unfold setModel
  split
  · rename_i current _
    split_ifs
    · split
      · rename_i map _
        have hall := restartAll_grows loads new w (handlesToRestart order map current new)
        split <;> rename_i heq <;> rw [heq] at hall
        · exact hmodel _ hall
        · exact hall
      · exact Grows.refl w
    · exact hmodel w (Grows.refl w)
  · exact hmodel w (Grows.refl w)

/-! ## What a swap should do -/

/-- the worker follows model changes, and its handles are those of live tasks, each of its own and bound to the target
that it is listed under -/
structure Hosting (w : Worker) : Prop where
  follows : w.behaviorsFollowModelChanges = true
  live : ∀ target h, h ∈ w.handlesOn target → ∃ t, w.tasks[h.task]? = some t ∧ t.live = true ∧ t.target = target
  own : ∀ target, ((w.handlesOn target).map Handle.task).Nodup

/-- the names of the behaviors that the new model changes -/
def changes (w : Worker) (new : List Behavior) : List String :=
  (w.model.map fun current => changedBehaviors current new).getD []

/-- the script that runs behind a handle -/
def scriptOf (w : Worker) (h : Handle) : Option String := w.tasks[h.task]?.map Task.script

/-- the Lua script of the behavior of that name -/
def scriptIn (new : List Behavior) (name : String) : Option String :=
  match (named name new).map Behavior.inner with
  | some (.lua _ script) => some script
  | _ => none

/-- the swap succeeds and stores the model; the tasks of changed behaviors have ended; every handle is that of a live
task; and under each target there is one handle for each that was there, with the new script if its behavior changed -/
structure Swapped (loads : String → Bool) (order : TargetOrder) (new : List Behavior) (w : Worker) : Prop where
  succeeds : (w.setModel loads order new).2 = .ok ()
  stored : (w.setModel loads order new).1.model = some new
  ended : ∀ target h, h ∈ w.handlesOn target → h.name ∈ w.changes new → ¬ (w.setModel loads order new).1.Live h.task
  hosting : Hosting (w.setModel loads order new).1
  one : ∀ target,
    (((w.setModel loads order new).1.handlesOn target).map fun h =>
        (h.name, (w.setModel loads order new).1.scriptOf h) : Multiset (String × Option String)) =
      ((w.handlesOn target).map fun h =>
        (h.name, if h.name ∈ w.changes new then scriptIn new h.name else w.scriptOf h) : List (String × Option String))

/-- a worker that has a model has a partition, and no handle is that of a behavior that changes -/
structure Unchanged (new : List Behavior) (w : Worker) : Prop where
  partition : w.model.isSome = true → w.behaviors.isSome = true
  handles : ∀ target h, h ∈ w.handlesOn target → h.name ∉ w.changes new

theorem setModel_unchanged {loads : String → Bool} {order : TargetOrder} {new : List Behavior} {w : Worker}
    (h : Unchanged new w) : w.setModel loads order new = ({ w with model := some new }, .ok ()) := by
  unfold setModel
  cases hmodel : w.model with
  | none => rfl
  | some current =>
    dsimp only
    split_ifs
    · obtain ⟨map, hmap⟩ := Option.isSome_iff_exists.mp (h.partition (by simp [hmodel]))
      have hnone : handlesToRestart order map current new = [] := by
        refine List.flatMap_eq_nil_iff.mpr fun name hname => List.filter_eq_nil_iff.mpr fun handle hhandle => ?_
        obtain ⟨target, -, hin⟩ := List.mem_flatMap.mp hhandle
        have hunchanged := h.handles target handle (by simpa [handlesOn, hmap] using hin)
        simp only [changes, hmodel, Option.map_some, Option.getD_some] at hunchanged
        simp only [decide_eq_true_eq]
        exact fun heq => hunchanged (heq ▸ hname)
      simp only [hmap, hnone, restartAll]
    · rfl

/-- **One swap.** -/
theorem swapped_iff {loads : String → Bool} {order : TargetOrder} {new : List Behavior} {w : Worker}
    (h : Hosting w) : Swapped loads order new w ↔ Unchanged new w := by
  constructor
  · intro hs
    refine ⟨fun hmodel => ?_, fun target handle hin hchanged => ?_⟩
    · by_contra hnone
      obtain ⟨current, hcurrent⟩ := Option.isSome_iff_exists.mp hmodel
      have hmap : w.behaviors = none := by simpa using hnone
      have hsucceeds := hs.succeeds
      unfold setModel at hsucceeds
      rw [hcurrent, hmap, h.follows] at hsucceeds
      cases hsucceeds
    · -- the handle is still there
      have hstays := (setModel_grows loads order new w).handles target handle hin
      obtain ⟨t, ht, hlive, -⟩ := hs.hosting.live target handle hstays
      exact hs.ended target handle hin hchanged ⟨t, ht, hlive⟩
  · intro hu
    have hrun := @setModel_unchanged loads order new w hu
    refine ⟨by rw [hrun], by rw [hrun], ?_, ?_, fun target => ?_⟩
    · exact fun target handle hin hchanged => absurd hchanged (hu.handles target handle hin)
    · rw [hrun]
      exact ⟨h.follows, h.live, h.own⟩
    · rw [hrun]
      have hmap : (w.handlesOn target).map (fun h =>
          (h.name, if h.name ∈ w.changes new then scriptIn new h.name else w.scriptOf h)) =
          (w.handlesOn target).map fun h => (h.name, w.scriptOf h) :=
        List.map_congr_left fun handle hin => by rw [if_neg (hu.handles target handle hin)]
      rw [hmap]
      rfl

/-- one request, with the order in which it iterates the handles -/
def step (loads : String → Bool) (w : Worker) (op : TargetOrder × List Behavior) : Worker :=
  (w.setModel loads op.1 op.2).1

/-- **Hot swaps.** Along any run of `SetModel` requests, on a worker that follows model changes and whose handles are
those of live Lua tasks, every swap does what it should if and only if in each the worker has a partition (or no model
yet) and no handle of a behavior that changes. -/
theorem hot_swap_iff (loads : String → Bool) (w : Worker) (h : Hosting w) (ops : List (TargetOrder × List Behavior)) :
    (∀ n op, ops[n]? = some op → Swapped loads op.1 op.2 (Core.run (step loads) w (ops.take n))) ↔
      Core.Along (step loads) (fun w op => Unchanged op.2 w) w ops := by
  have hstep : ∀ w op, Hosting w → Swapped loads op.1 op.2 w → Hosting (step loads w op) :=
    fun _ _ _ hs => hs.hosting
  have hok : ∀ (w : Worker) (op : TargetOrder × List Behavior), Hosting w →
      (Swapped loads op.1 op.2 w ↔ Unchanged op.2 w) := fun _ _ hw => swapped_iff hw
  have hall := @Core.along_iff _ _ (step loads) (fun w op => Swapped loads op.1 op.2 w) w ops
  exact hall.symm.trans (Core.Along.congr hstep hok h)

end Worker

/-! ## Another script -/

/-- the ball's behavior, with this script -/
def bounce (script : String) : Behavior :=
  ⟨"bounce", ["step"], [.perEntityWithAnyComponent ["ball"]], "", .lua true script⟩

/-- a worker with one ball -/
def oneBall : Worker where
  behaviorsFollowModelChanges := true
  model := some [bounce "up"]
  behaviors := some (Finmap.singleton (.entity "ball") [⟨"bounce", ["step"], 0⟩])
  tasks := [⟨"up", .entity "ball", true⟩]

noncomputable def anyTargets : TargetOrder := ⟨fun map => map.keys.val.toList, fun _ => Multiset.coe_toList _⟩

theorem handlesOn_oneBall (target : BehaviorTarget) :
    oneBall.handlesOn target = if target = .entity "ball" then [⟨"bounce", ["step"], 0⟩] else [] := by
  unfold oneBall Worker.handlesOn
  split_ifs with h
  · rw [h]
    rfl
  · rw [Option.getD_some, Finmap.lookup_eq_none.mpr (by simpa using h)]
    rfl

theorem hosting_oneBall : oneBall.Hosting := by
  refine ⟨rfl, fun target h hin => ?_, fun target => ?_⟩
  · rw [handlesOn_oneBall] at hin
    split_ifs at hin with htarget
    · obtain rfl := List.mem_singleton.mp hin
      exact ⟨_, rfl, rfl, htarget.symm⟩
    · cases hin
  · rw [handlesOn_oneBall]
    split_ifs <;> simp

theorem swap_leaves_finished : ¬ ∀ (loads : String → Bool) (w : Worker), w.Hosting →
    ∀ (ops : List (TargetOrder × List Behavior)) n op, ops[n]? = some op →
      Worker.Swapped loads op.1 op.2 (Core.run (Worker.step loads) w (ops.take n)) := by
  intro h
  have hswapped := h (fun _ => true) oneBall hosting_oneBall [(anyTargets, [bounce "down"])] 0 _ rfl
  have hunchanged := (Worker.swapped_iff hosting_oneBall).mp hswapped
  exact hunchanged.handles (.entity "ball") ⟨"bounce", ["step"], 0⟩ (by decide) (by decide)

theorem hot_swap_iff_oneBall :
    (∀ n op, [(anyTargets, [bounce "up"])][n]? = some op → Worker.Swapped (fun _ => true) op.1 op.2
        (Core.run (Worker.step fun _ => true) oneBall ([(anyTargets, [bounce "up"])].take n))) ↔
      Core.Along (Worker.step fun _ => true) (fun w op => Worker.Unchanged op.2 w) oneBall
        [(anyTargets, [bounce "up"])] :=
  Worker.hot_swap_iff (fun _ => true) oneBall hosting_oneBall [(anyTargets, [bounce "up"])]

end BigWorlds.HotSwap
