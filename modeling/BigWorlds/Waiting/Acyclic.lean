/-
Deadlock freedom of the managers, handlers and behaviors.

Without `Shutdown` waiting only ever leads down: behaviors wait for calls, calls and `SetModel` for the worker's
manager, the leader's manager for `SetModel`, and nothing waits for the rest but handlers that are older. A worker's
manager that handles `Shutdown` waits itself, for its behaviors and then for the leader, and closes two kinds of cycles:
with a behavior that is in a call, and with the leader's manager when it sends a model to this worker.

- `Careful`: neither is begun;
- `acyclic_run`: in every run of careful steps the wait-for relation has no cycle in any state;
- `shutdown_deadlocks`: a behavior calls `getVar` when its worker is shut down.
-/
import BigWorlds.Waiting.System

namespace BigWorlds.Waiting

open BigWorlds.Core (run run_inv Along)

/-! ## Relations without cycles -/

def Acyclic {α : Type*} (r : α → α → Prop) : Prop := ∀ a, ¬ Relation.TransGen r a a

/-- a number that gets smaller along the relation -/
theorem acyclic_of_rank {α : Type*} {r : α → α → Prop} (rank : α → ℕ) (h : ∀ a b, r a b → rank b < rank a) :
    Acyclic r := by
  have hlt : ∀ {a b}, Relation.TransGen r a b → rank b < rank a := by
    intro a b hab
    induction hab with
    | single hab => exact h _ _ hab
    | tail _ hbc ih => exact Nat.lt_trans (h _ _ hbc) ih
  exact fun a ha => Nat.lt_irrefl _ (hlt ha)

/-! ## What is to be avoided -/

namespace System

/-- what the handler handles -/
def kind (s : System) : Task → Option Kind
  | .handler h => (s.handlers h).map Handler.kind
  | _ => none

/-- the manager of worker `w` is in `Shutdown` and waits for the leader -/
def TellsLeader (s : System) (w : WorkerId) : Prop := ∃ t ∈ s.waits (.manager w), t.isHandler = true

/-- the leader's manager waits for `SetModel` at worker `w` -/
def SendsModel (s : System) (w : WorkerId) : Prop :=
  ∃ t ∈ s.waits .leaderManager, s.kind t = some (.worker w .setModel)

instance (s : System) (w : WorkerId) : Decidable (s.TellsLeader w) := inferInstanceAs (Decidable (∃ _ ∈ _, _))

instance (s : System) (w : WorkerId) : Decidable (s.SendsModel w) := inferInstanceAs (Decidable (∃ _ ∈ _, _))

end System

/-- what a step may do:
- a manager in `Shutdown` turns to a behavior only while that is not in a call, and a behavior does not call while the
  manager of its worker waits for it;
- a manager in `Shutdown` turns to the leader only while the leader's manager does not wait for `SetModel` at this
  worker, and that manager does not send a model to a worker whose manager waits for the leader -/
def Careful (owner : ℕ → WorkerId) (s : System) : Op → Prop
  | .proceed w =>
    match s.managers w with
    | .shutdown _ (b :: _) _ none => s.waits (.behavior b) = []
    | .shutdown _ [] true none => ¬ s.SendsModel w
    | _ => True
  | .call b _ => .behavior b ∉ s.waits (.manager (owner b))
  | .proceedLeader false =>
    match s.leader with
    | .propagating _ (w :: _) none => ¬ s.TellsLeader w
    | _ => True
  | _ => True

/-! ## Programs -/

def Ask.isBehaviors : Ask → Bool
  | .behaviors _ => true
  | _ => false

def Ask.isParties : Ask → Bool
  | .workers _ | .leader _ => true
  | _ => false

/-- everything that the handler may ask -/
def Kind.asks (k : Kind) : List Ask := k.program.flatMap Phase.asks

theorem call_asks (b : ℕ) (r : VarRequest) :
    (Kind.call b r).asks.any Ask.isBehaviors = false ∧ (Kind.call b r).asks.any Ask.isParties = false := by
  cases r <;> exact ⟨rfl, rfl⟩

theorem disconnect_asks (w : WorkerId) : (Kind.leader (.disconnectWorker w)).asks.any Ask.isBehaviors = false ∧
    (Kind.leader (.disconnectWorker w)).asks.any Ask.isParties = false := ⟨rfl, rfl⟩

theorem setModel_asks (w : WorkerId) : (Kind.worker w .setModel).asks.any Ask.isParties = false := rfl

/-! ## The invariant -/

section
variable {owner : ℕ → WorkerId} {s s' : System} {t u : Task}

/-- whom handler `h` may wait for -/
def Awaits (owner : ℕ → WorkerId) (h : ℕ) (k : Kind) : Task → Prop
  | .leaderManager => k.site owner = none
  | .manager w => k.site owner = some w
  | .behavior b => k.site owner = some (owner b) ∧ k.asks.any Ask.isBehaviors = true
  | .handler h' => h < h' ∧ k.asks.any Ask.isParties = true

/-- whom a task may wait for -/
def Edge (owner : ℕ → WorkerId) (s : System) : Task → Task → Prop
  | .manager w, .behavior b => owner b = w ∧ s.waits (.behavior b) = []
  | .manager w, .handler h => s.kind (.handler h) = some (.leader (.disconnectWorker w))
  | .leaderManager, .handler h => ∃ w, s.kind (.handler h) = some (.worker w .setModel) ∧ ¬ s.TellsLeader w
  | .behavior b, .handler h => ∃ r, s.kind (.handler h) = some (.call b r)
  | .handler h, t => ∀ k, s.kind (.handler h) = some k → Awaits owner h k t
  | _, _ => False

/-- every task waits only for whom it may wait for -/
def Ordered (owner : ℕ → WorkerId) (s : System) : Prop := ∀ t u, s.WaitsFor t u → Edge owner s t u

/-- handlers are numbered in order, do what their source says, and a manager in `Shutdown` has its own behaviors left -/
structure Wf (owner : ℕ → WorkerId) (s : System) : Prop where
  fresh : ∀ h, s.next ≤ h → s.handlers h = none
  rest : ∀ h x, s.handlers h = some x → ∀ p ∈ x.rest, p ∈ x.kind.program
  left : ∀ w h left leader waiting, s.managers w = .shutdown h left leader waiting → ∀ b ∈ left, owner b = w

/-! ## No cycles -/

/-- how far down waiting can lead from a task -/
noncomputable def rank (owner : ℕ → WorkerId) (s : System) : Task → ℕ
  | .behavior b => if s.waits (.behavior b) = [] then 0 else if s.TellsLeader (owner b) then 9 else 3
  | .manager w => if s.TellsLeader w then 7 else 1
  | .leaderManager => 5
  | .handler h =>
    match s.kind (.handler h) with
    | some (.call b _) => if s.TellsLeader (owner b) then 8 else 2
    | some (.leader (.disconnectWorker _)) => 6
    | some (.worker _ .setModel) => if .handler h ∈ s.waits .leaderManager then 4 else 10 + (s.next - h)
    | _ => 10 + (s.next - h)

theorem rank_manager_le (w : WorkerId) : rank owner s (.manager w) ≤ 7 := by
  simp only [rank]
  split_ifs <;> omega

theorem rank_behavior_le (b : ℕ) : rank owner s (.behavior b) ≤ 9 := by
  simp only [rank]
  split_ifs <;> omega

theorem rank_handler_le (h : ℕ) : rank owner s (.handler h) ≤ 10 + (s.next - h) := by
  simp only [rank]
  split
  · split_ifs <;> omega
  · omega
  · split_ifs <;> omega
  · exact Nat.le_refl _

/-- a handler that nothing above waits for -/
theorem rank_lt_of_awaits {h : ℕ} {k : Kind} (hn : h < s.next)
    (ha : Awaits owner h k u) : rank owner s u < 10 + (s.next - h) := by
  cases u with
  | leaderManager => simp only [rank]; omega
  | manager w => exact Nat.lt_of_le_of_lt (rank_manager_le w) (by omega)
  | behavior b => exact Nat.lt_of_le_of_lt (rank_behavior_le b) (by omega)
  | handler h' =>
    have hlt : h < h' := ha.1
    exact Nat.lt_of_le_of_lt (rank_handler_le h') (by omega)

theorem rank_lt (hwf : Wf owner s) (ho : Ordered owner s) (hw : s.WaitsFor t u) : rank owner s u < rank owner s t := by
  have hedge := ho t u hw
  cases t with
  | manager w =>
    cases u with
    | behavior b =>
      obtain ⟨_, hidle⟩ := hedge
      have hb : rank owner s (.behavior b) = 0 := by simp only [rank, hidle, if_true]
      rw [hb]
      simp only [rank]
      split_ifs <;> omega
    | handler h =>
      have hk : s.kind (.handler h) = some (.leader (.disconnectWorker w)) := hedge
      have htells : s.TellsLeader w := ⟨_, hw, rfl⟩
      simp only [rank, hk, htells, if_true]
      omega
    | leaderManager => exact hedge.elim
    | manager v => exact hedge.elim
  | leaderManager =>
    cases u with
    | handler h =>
      obtain ⟨w, hk, _⟩ := hedge
      have hmem : .handler h ∈ s.waits .leaderManager := hw
      simp only [rank, hk, hmem, if_true]
      omega
    | behavior b => exact hedge.elim
    | leaderManager => exact hedge.elim
    | manager v => exact hedge.elim
  | behavior b =>
    cases u with
    | handler h =>
      obtain ⟨r, hk⟩ := hedge
      have hne : s.waits (.behavior b) ≠ [] := List.ne_nil_of_mem hw
      simp only [rank, hk, hne, if_false]
      split_ifs <;> omega
    | behavior b => exact hedge.elim
    | leaderManager => exact hedge.elim
    | manager v => exact hedge.elim
  | handler h =>
    obtain ⟨x, hx, _⟩ : ∃ x, s.handlers h = some x ∧ u ∈ x.waiting := by
      have hw' : u ∈ ((s.handlers h).map Handler.waiting).getD [] := hw
      cases hx : s.handlers h with
      | none =>
        rw [hx] at hw'
        exact absurd hw' List.not_mem_nil
      | some x =>
        rw [hx] at hw'
        exact ⟨x, rfl, hw'⟩
    have hk : s.kind (.handler h) = some x.kind := by simp [System.kind, hx]
    have hn : h < s.next := by
      by_contra hge
      exact absurd hx (by rw [hwf.fresh h (Nat.le_of_not_lt hge)]; simp)
    have ha : Awaits owner h x.kind u := hedge x.kind hk
    have hother := rank_lt_of_awaits hn ha
    cases hkind : x.kind with
    | call b r =>
      rw [hkind] at hk ha
      obtain ⟨hb, hp⟩ := call_asks b r
      cases u with
      | manager w =>
        obtain rfl : owner b = w := Option.some.inj ha
        simp only [rank, hk]
        split_ifs <;> omega
      | leaderManager => exact absurd ha (by simp [Awaits, Kind.site])
      | behavior b' => exact absurd ha.2 (by rw [hb]; simp)
      | handler h' => exact absurd ha.2 (by rw [hp]; simp)
    | leader r =>
      rw [hkind] at hk ha
      cases r with
      | disconnectWorker w =>
        obtain ⟨hb, hp⟩ := disconnect_asks w
        cases u with
        | leaderManager =>
          simp only [rank, hk]
          omega
        | manager v => exact absurd ha (by simp [Awaits, Kind.site])
        | behavior b' => exact absurd ha.2 (by rw [hb]; simp)
        | handler h' => exact absurd ha.2 (by rw [hp]; simp)
      | _ => simpa only [rank, hk] using hother
    | worker w r =>
      rw [hkind] at hk ha
      cases r with
      | setModel =>
        by_cases hmem : .handler h ∈ s.waits .leaderManager
        · -- the leader's manager waits for it, and the worker's manager does not wait for the leader
          obtain ⟨w', hk', hnot⟩ := ho _ _ hmem
          obtain rfl : w = w' := by
            have := hk.symm.trans hk'
            simpa using this
          have hr : rank owner s (.handler h) = 4 := by simp only [rank, hk, hmem, if_true]
          rw [hr]
          cases u with
          | manager v =>
            obtain rfl : w = v := Option.some.inj ha
            simp only [rank, hnot, if_false]
            omega
          | leaderManager => exact absurd ha (by simp [Awaits, Kind.site])
          | behavior b' =>
            obtain rfl : w = owner b' := Option.some.inj ha.1
            simp only [rank, hnot, if_false]
            split_ifs <;> omega
          | handler h' => exact absurd ha.2 (by rw [setModel_asks]; simp)
        · simpa only [rank, hk, hmem, if_false] using hother
      | _ => simpa only [rank, hk] using hother

theorem acyclic_of_ordered (hwf : Wf owner s) (ho : Ordered owner s) : Acyclic s.WaitsFor :=
  acyclic_of_rank (rank owner s) fun _ _ hw => rank_lt hwf ho hw

/-! ## What changes -/

/-- at most the waits of task `t` grow, by `new`; kinds stay -/
structure Gains (s s' : System) (t : Task) (new : List Task) : Prop where
  kinds : ∀ u k, s.kind u = some k → s'.kind u = some k
  others : ∀ u, u ≠ t → s'.waits u ⊆ s.waits u
  this : s'.waits t ⊆ s.waits t ++ new

/-- the state is well-formed and only these waits have grown -/
structure Goes (owner : ℕ → WorkerId) (s s' : System) (t : Task) (new : List Task) : Prop where
  wf : Wf owner s'
  gains : Gains s s' t new

variable {new : List Task}

theorem Gains.waits (h : Gains s s' t []) (u : Task) : s'.waits u ⊆ s.waits u := by
  by_cases hu : u = t
  · subst hu
    simpa using h.this
  · exact h.others u hu

theorem Goes.refl (hwf : Wf owner s) (t : Task) : Goes owner s s t [] :=
  ⟨hwf, fun _ _ h => h, fun _ _ => List.Subset.refl _, by simp⟩

/-- before or after, waits get less -/
theorem Goes.then {s'' : System} {v : Task} (h : Goes owner s s' t new) (h' : Goes owner s' s'' v []) :
    Goes owner s s'' t new :=
  ⟨h'.wf, fun u k hk => h'.gains.kinds u k (h.gains.kinds u k hk),
    fun u hu => List.Subset.trans (h'.gains.waits u) (h.gains.others u hu),
    List.Subset.trans (h'.gains.waits t) h.gains.this⟩

theorem Goes.after {s'' : System} {v : Task} (h : Goes owner s s' v []) (h' : Goes owner s' s'' t new) :
    Goes owner s s'' t new :=
  ⟨h'.wf, fun u k hk => h'.gains.kinds u k (h.gains.kinds u k hk),
    fun u hu => List.Subset.trans (h'.gains.others u hu) (h.gains.waits u),
    fun _ hu => List.mem_append.mpr ((List.mem_append.mp (h'.gains.this hu)).imp_left (h.gains.waits t ·))⟩

theorem Goes.any {v : Task} (h : Goes owner s s' t []) : Goes owner s s' v [] :=
  ⟨h.wf, h.gains.kinds, fun u _ => h.gains.waits u, fun _ hu => List.mem_append_left _ (h.gains.waits v hu)⟩

/-- a handler goes on -/
theorem goes_handler (hwf : Wf owner s) {h : ℕ} {x : Handler} (x' : Handler) (hx : s.handlers h = some x)
    (hkind : x'.kind = x.kind) (hrest : x'.rest ⊆ x.rest) (hw : x'.waiting ⊆ x.waiting ++ new) :
    Goes owner s { s with handlers := Function.update s.handlers h (some x') } (.handler h) new := by
  have hother : ∀ h', h' ≠ h → Function.update s.handlers h (some x') h' = s.handlers h' := fun h' hne =>
    Function.update_of_ne hne _ _
  refine ⟨⟨fun h' hn => ?_, fun h' y hy p hp => ?_, hwf.left⟩, fun u k hk => ?_, fun u hu => ?_, ?_⟩
  · have hne : h' ≠ h := by
      rintro rfl
      exact absurd ((hwf.fresh h' hn).symm.trans hx) (by simp)
    exact (hother h' hne).trans (hwf.fresh h' hn)
  · by_cases hne : h' = h
    · subst hne
      obtain rfl : x' = y := by simpa using hy
      rw [hkind]
      exact hwf.rest h' x hx p (hrest hp)
    · exact hwf.rest h' y ((hother h' hne).symm.trans hy) p hp
  · cases u with
    | handler h' =>
      by_cases hne : h' = h
      · subst hne
        simpa [System.kind, hx, hkind] using hk
      · simpa [System.kind, hne] using hk
    | _ => exact hk
  · cases u with
    | handler h' =>
      have hne : h' ≠ h := fun he => hu (by rw [he])
      simp [System.waits, hne]
    | _ => exact List.Subset.refl _
  · simpa [System.waits, hx] using hw

/-- a manager goes on -/
theorem goes_manager (hwf : Wf owner s) {w : WorkerId} {a : ManagerActivity}
    (hleft : ∀ h left leader waiting, a = .shutdown h left leader waiting → ∀ b ∈ left, owner b = w)
    (hw : a.waits ⊆ (s.managers w).waits ++ new) :
    Goes owner s { s with managers := Function.update s.managers w a } (.manager w) new := by
  refine ⟨⟨hwf.fresh, hwf.rest, fun v h left leader waiting hv b hb => ?_⟩, fun _ _ hk => hk, fun u hu => ?_, ?_⟩
  · by_cases hne : v = w
    · subst hne
      exact hleft h left leader waiting (by simpa using hv) b hb
    · exact hwf.left v h left leader waiting (by simpa [hne] using hv) b hb
  · cases u with
    | manager v =>
      have hne : v ≠ w := fun he => hu (by rw [he])
      simp [System.waits, hne]
    | _ => exact List.Subset.refl _
  · simpa [System.waits] using hw

theorem goes_leader (hwf : Wf owner s) {a : LeaderActivity} (hw : a.waits ⊆ s.leader.waits ++ new) :
    Goes owner s { s with leader := a } .leaderManager new := by
  refine ⟨⟨hwf.fresh, hwf.rest, hwf.left⟩, fun _ _ hk => hk, fun u hu => ?_, hw⟩
  cases u with
  | leaderManager => exact absurd rfl hu
  | _ => exact List.Subset.refl _

theorem goes_behavior (hwf : Wf owner s) {b : ℕ} {a : BehaviorActivity}
    (hw : a.waits ⊆ (s.behaviors b).waits ++ new) :
    Goes owner s { s with behaviors := Function.update s.behaviors b a } (.behavior b) new := by
  refine ⟨⟨hwf.fresh, hwf.rest, hwf.left⟩, fun _ _ hk => hk, fun u hu => ?_, ?_⟩
  · cases u with
    | behavior b' =>
      have hne : b' ≠ b := fun he => hu (by rw [he])
      simp [System.waits, hne]
    | _ => exact List.Subset.refl _
  · simpa [System.waits] using hw

theorem goes_spawn (hwf : Wf owner s) (caller : Option Task) (k : Kind) (v : Task) :
    Goes owner s (s.spawn caller k) v [] ∧ (s.spawn caller k).kind (.handler s.next) = some k := by
  have hnone := hwf.fresh s.next (Nat.le_refl _)
  have hwaits : ∀ u, (s.spawn caller k).waits u = s.waits u := by
    intro u
    cases u with
    | handler h =>
      by_cases hne : h = s.next
      · subst hne
        simp [System.waits, System.spawn, hnone]
      · simp [System.waits, System.spawn, hne]
    | _ => rfl
  refine ⟨⟨⟨fun h hn => ?_, fun h x hx p hp => ?_, hwf.left⟩, fun u k' hk => ?_, fun u _ => ?_, ?_⟩, ?_⟩
  · have hlt : s.next < h := hn
    have hne : h ≠ s.next := Nat.ne_of_gt hlt
    simpa [System.spawn, hne] using hwf.fresh h (Nat.le_of_lt hlt)
  · by_cases hne : h = s.next
    · subst hne
      obtain rfl : _ = x := by simpa [System.spawn] using hx
      exact hp
    · exact hwf.rest h x (by simpa [System.spawn, hne] using hx) p hp
  · cases u with
    | handler h =>
      have hne : h ≠ s.next := by
        rintro rfl
        exact absurd hk (by simp [System.kind, hnone])
      simpa [System.kind, System.spawn, hne] using hk
    | _ => exact hk
  · rw [hwaits]
    exact List.Subset.refl _
  · rw [hwaits]
    exact List.subset_append_left _ _
  · simp [System.kind, System.spawn]

theorem goes_spawnAll (hwf : Wf owner s) (caller : Option Task) (ks : List Kind) (v : Task) :
    Goes owner s (System.spawnAll caller ks s).1 v [] ∧
      ∀ u ∈ (System.spawnAll caller ks s).2, ∃ h, s.next ≤ h ∧ u = .handler h := by
  induction ks generalizing s with
  | nil => exact ⟨Goes.refl hwf v, fun u hu => absurd hu List.not_mem_nil⟩
  | cons k ks ih =>
    obtain ⟨hfirst, _⟩ := goes_spawn hwf caller k v
    obtain ⟨hrest, hids⟩ := ih hfirst.wf
    refine ⟨hfirst.then hrest, fun u hu => ?_⟩
    rcases List.mem_cons.mp hu with rfl | hu
    · exact ⟨s.next, Nat.le_refl _, rfl⟩
    · obtain ⟨h, hn, rfl⟩ := hids u hu
      exact ⟨h, Nat.le_of_succ_le hn, rfl⟩

/-- a reply takes a wait away -/
theorem goes_answer (hwf : Wf owner s) (u v t : Task) : Goes owner s (s.answer u v) t [] := by
  unfold System.answer
  cases v with
  | leaderManager =>
    simp only
    split
    · split_ifs
      · exact (goes_leader hwf (by simp [LeaderActivity.waits])).any
      · exact Goes.refl hwf t
    · exact Goes.refl hwf t
  | manager w =>
    simp only
    split
    · rename_i h left leader t' hm
      split_ifs
      · refine (goes_manager hwf (fun h' left' leader' waiting' heq b hb => ?_) (by simp [ManagerActivity.waits])).any
        obtain ⟨_, rfl, _⟩ := ManagerActivity.shutdown.inj heq
        exact hwf.left w h _ leader (some t') hm b hb
      · exact Goes.refl hwf t
    · exact Goes.refl hwf t
  | behavior b =>
    simp only
    split
    · split_ifs
      · exact (goes_behavior hwf (by simp [BehaviorActivity.waits])).any
      · exact Goes.refl hwf t
    · exact Goes.refl hwf t
  | handler h =>
    simp only
    split
    · rename_i x hx
      have hfewer : x.waiting.erase u ⊆ x.waiting ++ [] := by
        rw [List.append_nil]
        exact List.erase_subset
      exact (goes_handler hwf { x with waiting := x.waiting.erase u } hx rfl (List.Subset.refl _) hfewer).any
    · exact Goes.refl hwf t

/-! ## What one step can do -/

/-- where the waits grow, the new ones are allowed -/
theorem Ordered.gain (ho : Ordered owner s) (g : Gains s s' t new) (hnew : ∀ u ∈ new, Edge owner s' t u)
    (hb : ∀ w b, .behavior b ∈ s.waits (.manager w) → s'.waits (.behavior b) = [])
    (hm : ∀ u ∈ s.waits .leaderManager, ∀ w, s.kind u = some (.worker w .setModel) → ¬ s'.TellsLeader w) :
    Ordered owner s' := by
  -- an edge that was there before is still allowed
  have hold : ∀ v u, u ∈ s.waits v → Edge owner s' v u := by
    intro v u hu
    have hedge := ho v u hu
    cases v with
    | leaderManager =>
      cases u with
      | handler h =>
        obtain ⟨w, hk, _⟩ := hedge
        exact ⟨w, g.kinds _ _ hk, hm _ hu w hk⟩
      | _ => exact hedge.elim
    | manager w =>
      cases u with
      | behavior b => exact ⟨hedge.1, hb w b hu⟩
      | handler h => exact g.kinds _ _ hedge
      | _ => exact hedge.elim
    | behavior b =>
      cases u with
      | handler h =>
        obtain ⟨r, hk⟩ := hedge
        exact ⟨r, g.kinds _ _ hk⟩
      | _ => exact hedge.elim
    | handler h =>
      intro k hk
      cases hx : s.handlers h with
      | none =>
        rw [System.waits, hx] at hu
        exact absurd hu List.not_mem_nil
      | some x =>
        have hkind : s.kind (.handler h) = some x.kind := by simp [System.kind, hx]
        obtain rfl : x.kind = k := Option.some.inj ((g.kinds _ _ hkind).symm.trans hk)
        exact hedge x.kind hkind
  intro v u hu
  by_cases hv : v = t
  · subst hv
    rcases List.mem_append.mp (g.this hu) with hu | hu
    · exact hold v u hu
    · exact hnew u hu
  · exact hold v u (g.others v hv hu)

/-- a behavior that is not in a call stays out of one, if it does not begin one now -/
theorem Ordered.idle (ho : Ordered owner s) (g : Gains s s' t new) (ht : ∀ b, t ≠ .behavior b) (w : WorkerId) (b : ℕ)
    (h : .behavior b ∈ s.waits (.manager w)) : s'.waits (.behavior b) = [] := by
  obtain ⟨_, hidle⟩ := ho _ _ h
  have hsub := g.others (.behavior b) (Ne.symm (ht b))
  rw [hidle] at hsub
  exact List.subset_nil.mp hsub

/-- a manager does not wait for the leader, if it does not turn to it now -/
theorem Ordered.silent (ho : Ordered owner s) (g : Gains s s' t new) {w : WorkerId}
    (ht : t = .manager w → ∀ u ∈ new, u.isHandler = false) (u : Task) (hu : u ∈ s.waits .leaderManager)
    (hk : s.kind u = some (.worker w .setModel)) : ¬ s'.TellsLeader w := by
  rintro ⟨v, hv, hh⟩
  have hnot : ¬ s.TellsLeader w := by
    have hedge := ho _ _ hu
    cases u with
    | handler h =>
      obtain ⟨w', hk', hnot⟩ := hedge
      obtain rfl : w = w' := by simpa using hk.symm.trans hk'
      exact hnot
    | _ => exact hedge.elim
  by_cases hw : .manager w = t
  · rcases List.mem_append.mp (g.this (hw ▸ hv)) with hv | hv
    · exact hnot ⟨v, hw ▸ hv, hh⟩
    · exact absurd hh (by rw [ht hw.symm v hv]; simp)
  · exact hnot ⟨v, g.others _ hw hv, hh⟩

/-- fewer waits -/
theorem Ordered.less (ho : Ordered owner s) (g : Goes owner s s' t []) : Wf owner s' ∧ Ordered owner s' := by
  have g' : Goes owner s s' .leaderManager [] := g.any
  refine ⟨g.wf, ho.gain g'.gains (fun u hu => absurd hu List.not_mem_nil) ?_ ?_⟩
  · exact ho.idle g'.gains (by simp)
  · exact fun u hu w hk => ho.silent g'.gains (by simp) u hu hk

/-! ## Asking -/

theorem mem_asks {k : Kind} {p : Phase} {a : Ask} (hp : p ∈ k.program) (ha : a ∈ p.asks) : a ∈ k.asks :=
  List.mem_flatMap.mpr ⟨p, hp, ha⟩

/-- requests to a manager are sent where the handler is -/
theorem awaits_manager (h : ℕ) (k : Kind) : Awaits owner h k (k.manager owner) := by
  unfold Kind.manager
  cases hsite : k.site owner with
  | none => exact hsite
  | some w => exact hsite

/-- whatever is sent goes to a task that the handler may wait for -/
theorem goes_send (hwf : Wf owner s) {h : ℕ} {k : Kind} (hn : h < s.next) (bs : List ℕ) (ws : List WorkerId) {a : Ask}
    (ha : a ∈ k.asks) (v : Task) :
    Goes owner s (s.send owner h k bs ws a).1 v [] ∧ ∀ u ∈ (s.send owner h k bs ws a).2, Awaits owner h k u := by
  have hparties : ∀ ks, a.isParties = true →
      Goes owner s (System.spawnAll (some (.handler h)) ks s).1 v [] ∧
        ∀ u ∈ (System.spawnAll (some (.handler h)) ks s).2, Awaits owner h k u := by
    intro ks hp
    obtain ⟨hgoes, hids⟩ := goes_spawnAll hwf (some (.handler h)) ks v
    refine ⟨hgoes, fun u hu => ?_⟩
    obtain ⟨h', hge, rfl⟩ := hids u hu
    exact ⟨Nat.lt_of_lt_of_le hn hge, List.any_eq_true.mpr ⟨a, ha, hp⟩⟩
  cases a with
  | own r =>
    refine ⟨Goes.refl hwf v, fun u hu => ?_⟩
    obtain rfl : u = k.manager owner := by simpa [System.send] using hu
    exact awaits_manager h k
  | leaderOwn r =>
    refine ⟨Goes.refl hwf v, fun u hu => ?_⟩
    obtain rfl : u = k.manager owner := by simpa [System.send] using hu
    exact awaits_manager h k
  | behaviors shutdown =>
    refine ⟨Goes.refl hwf v, fun u hu => ?_⟩
    obtain ⟨b, hb, rfl⟩ := List.mem_map.mp hu
    exact ⟨by simpa using (List.mem_filter.mp hb).2, List.any_eq_true.mpr ⟨_, ha, rfl⟩⟩
  | workers r => exact hparties _ rfl
  | leader r => exact hparties _ rfl

theorem handlers_spawnAll {h : ℕ} (hn : h < s.next) (caller : Option Task) (ks : List Kind) :
    (System.spawnAll caller ks s).1.handlers h = s.handlers h := by
  induction ks generalizing s with
  | nil => rfl
  | cons k ks ih =>
    have hlt : h < (s.spawn caller k).next := Nat.lt_succ_of_lt hn
    refine (ih hlt).trans ?_
    exact Function.update_of_ne (Nat.ne_of_lt hn) _ _

theorem handlers_send {h : ℕ} (hn : h < s.next) (k : Kind) (bs : List ℕ) (ws : List WorkerId) (a : Ask) :
    (s.send owner h k bs ws a).1.handlers h = s.handlers h := by
  cases a with
  | workers r => exact handlers_spawnAll hn _ _
  | leader r => exact handlers_spawnAll hn _ _
  | _ => rfl

/-- the handler that asks waits for those it has asked -/
theorem goes_asking (hwf : Wf owner s) {h : ℕ} {x : Handler} (hx : s.handlers h = some x) {rest : List Phase}
    (hrest : rest ⊆ x.rest) (bs : List ℕ) (ws : List WorkerId) {a : Ask} (ha : a ∈ x.kind.asks) :
    ∃ new, Goes owner s (s.asking owner h x rest bs ws a) (.handler h) new ∧ ∀ u ∈ new, Awaits owner h x.kind u := by
  have hn : h < s.next := by
    by_contra hge
    exact absurd hx (by rw [hwf.fresh h (Nat.le_of_not_lt hge)]; simp)
  obtain ⟨hgoes, hnew⟩ := goes_send hwf hn bs ws ha (.handler h)
  have hx' : (s.send owner h x.kind bs ws a).1.handlers h = some x := (handlers_send hn x.kind bs ws a).trans hx
  exact ⟨_, hgoes.after (goes_handler hgoes.wf _ hx' rfl hrest (List.Subset.refl _)), hnew⟩

/-! ## One step -/

/-- the handler asks -/
theorem ordered_asking (hwf : Wf owner s) (ho : Ordered owner s) {h : ℕ} {x : Handler} (hx : s.handlers h = some x)
    {rest : List Phase} (hrest : rest ⊆ x.rest) (bs : List ℕ) (ws : List WorkerId) {a : Ask} (ha : a ∈ x.kind.asks) :
    Wf owner (s.asking owner h x rest bs ws a) ∧ Ordered owner (s.asking owner h x rest bs ws a) := by
  obtain ⟨new, hgoes, hnew⟩ := goes_asking hwf hx hrest bs ws ha
  have hk : s.kind (.handler h) = some x.kind := by simp [System.kind, hx]
  refine ⟨hgoes.wf, ho.gain hgoes.gains (fun u hu => ?_) (ho.idle hgoes.gains (by simp))
    (fun u hu w => ho.silent hgoes.gains (by simp) u hu)⟩
  intro k hk'
  obtain rfl : x.kind = k := Option.some.inj ((hgoes.gains.kinds _ _ hk).symm.trans hk')
  exact hnew u hu

/-- the manager turns to its next behavior, which is not in a call -/
theorem ordered_behavior (hwf : Wf owner s) (ho : Ordered owner s) {w : WorkerId} {h : Option ℕ} {b : ℕ}
    {left : List ℕ} {leader : Bool} (hm : s.managers w = .shutdown h (b :: left) leader none)
    (hidle : s.waits (.behavior b) = []) :
    let s' := { s with managers := Function.update s.managers w (.shutdown h left leader (some (.behavior b))) }
    Wf owner s' ∧ Ordered owner s' := by
  intro s'
  have hb : owner b = w := hwf.left w _ _ _ _ hm b List.mem_cons_self
  have hgoes : Goes owner s s' (.manager w) [.behavior b] := by
    refine goes_manager hwf (fun h' left' leader' waiting' heq b' hb' => ?_) (List.subset_append_right _ _)
    obtain ⟨_, rfl, _⟩ := ManagerActivity.shutdown.inj heq
    exact hwf.left w _ _ _ _ hm b' (List.mem_cons_of_mem _ hb')
  refine ⟨hgoes.wf, ho.gain hgoes.gains (fun u hu => ?_) (ho.idle hgoes.gains (by simp))
    (fun u hu v => ho.silent hgoes.gains (fun _ u hu => ?_) u hu)⟩
  · obtain rfl : u = .behavior b := by simpa using hu
    exact ⟨hb, hidle⟩
  · obtain rfl : u = .behavior b := by simpa using hu
    rfl

/-- the manager turns to the leader, whose manager does not wait for this worker -/
theorem ordered_tell (hwf : Wf owner s) (ho : Ordered owner s) {w : WorkerId} {h : Option ℕ}
    (hm : ¬ s.SendsModel w) :
    let s' := { s.spawn (some (.manager w)) (.leader (.disconnectWorker w)) with
      managers := Function.update s.managers w (.shutdown h [] false (some (.handler s.next))) }
    Wf owner s' ∧ Ordered owner s' := by
  intro s'
  obtain ⟨hspawn, hk⟩ := goes_spawn hwf (some (.manager w)) (.leader (.disconnectWorker w)) .leaderManager
  have hgoes : Goes owner s s' (.manager w) [.handler s.next] := by
    refine hspawn.after (goes_manager hspawn.wf (fun h' left' leader' waiting' heq b' hb' => ?_)
      (List.subset_append_right _ _))
    obtain ⟨_, rfl, _⟩ := ManagerActivity.shutdown.inj heq
    exact absurd hb' List.not_mem_nil
  refine ⟨hgoes.wf, ho.gain hgoes.gains (fun u hu => ?_) (ho.idle hgoes.gains (by simp)) (fun u hu v hk' => ?_)⟩
  · obtain rfl : u = .handler s.next := by simpa using hu
    exact hk
  · have hne : v ≠ w := by
      rintro rfl
      exact hm ⟨u, hu, hk'⟩
    exact ho.silent hgoes.gains (fun heq => absurd (Task.manager.inj heq).symm hne) u hu hk'

/-- the leader's manager sends the model to a worker whose manager does not wait for the leader -/
theorem ordered_sendModel (hwf : Wf owner s) (ho : Ordered owner s) {w : WorkerId} (h : ℕ) (left : List WorkerId)
    (hm : ¬ s.TellsLeader w) :
    let s' := { s.spawn (some .leaderManager) (.worker w .setModel) with
      leader := .propagating h left (some s.next) }
    Wf owner s' ∧ Ordered owner s' := by
  intro s'
  obtain ⟨hspawn, hk⟩ := goes_spawn hwf (some .leaderManager) (.worker w .setModel) .leaderManager
  have hgoes : Goes owner s s' .leaderManager [.handler s.next] :=
    hspawn.after (goes_leader hspawn.wf (List.subset_append_right _ _))
  refine ⟨hgoes.wf, ho.gain hgoes.gains (fun u hu => ?_) (ho.idle hgoes.gains (by simp))
    (fun u hu v => ho.silent hgoes.gains (by simp) u hu)⟩
  obtain rfl : u = .handler s.next := by simpa using hu
  exact ⟨w, hk, hm⟩

/-- a behavior that its worker's manager does not wait for calls -/
theorem ordered_call (hwf : Wf owner s) (ho : Ordered owner s) {b : ℕ} (r : VarRequest) (t : Task)
    (hb : .behavior b ∉ s.waits (.manager (owner b))) :
    let s' := { s.spawn (some (.behavior b)) (.call b r) with
      behaviors := Function.update s.behaviors b (.running t (some s.next)) }
    Wf owner s' ∧ Ordered owner s' := by
  intro s'
  obtain ⟨hspawn, hk⟩ := goes_spawn hwf (some (.behavior b)) (.call b r) .leaderManager
  have hgoes : Goes owner s s' (.behavior b) [.handler s.next] :=
    hspawn.after (goes_behavior hspawn.wf (List.subset_append_right _ _))
  refine ⟨hgoes.wf, ho.gain hgoes.gains (fun u hu => ?_) (fun w b' hw => ?_)
    (fun u hu v => ho.silent hgoes.gains (by simp) u hu)⟩
  · obtain rfl : u = .handler s.next := by simpa using hu
    exact ⟨r, hk⟩
  · obtain ⟨hw', hidle⟩ := ho _ _ hw
    have hne : b' ≠ b := by
      rintro rfl
      exact hb (hw' ▸ hw)
    have hsub := hgoes.gains.others (.behavior b') (by simpa using hne)
    rw [hidle] at hsub
    exact List.subset_nil.mp hsub

theorem ordered_step (hwf : Wf owner s) (ho : Ordered owner s) (o : Op) (hc : Careful owner s o) :
    Wf owner (step owner s o) ∧ Ordered owner (step owner s o) := by
  have hself : Wf owner s ∧ Ordered owner s := ⟨hwf, ho⟩
  cases o with
  | request w r => exact ho.less (goes_spawn hwf none (.worker w r) .leaderManager).1
  | leaderRequest r => exact ho.less (goes_spawn hwf none (.leader r) .leaderManager).1
  | ask h i bs ws =>
    simp only [step]
    split
    · rename_i x hx
      split
      · rename_i a rest hrest
        split_ifs
        · have hp := hwf.rest h x hx (.once a) (by rw [hrest]; exact List.mem_cons_self)
          exact ordered_asking hwf ho hx (by rw [hrest]; exact List.subset_cons_self _ _) bs ws
            (mem_asks hp List.mem_cons_self)
        · exact hself
      · rename_i as rest hrest
        split
        · rename_i a ha
          split_ifs
          · have hp := hwf.rest h x hx (.each as) (by rw [hrest]; exact List.mem_cons_self)
            exact ordered_asking hwf ho hx (by rw [hrest]; exact List.Subset.refl _) bs ws
              (mem_asks hp (List.mem_of_getElem? ha))
          · exact hself
        · exact hself
      · exact hself
    · exact hself
  | skip h =>
    simp only [step]
    split
    · rename_i x hx
      split
      · rename_i as rest hrest
        split_ifs
        · refine ho.less (goes_handler hwf _ hx rfl ?_ (List.subset_append_left _ _))
          rw [hrest]
          exact List.subset_cons_self _ _
        · exact hself
      · exact hself
    · exact hself
  | finish h =>
    simp only [step]
    split
    · rename_i x hx
      split_ifs
      · have hdone := goes_handler hwf { x with done := true } hx rfl (List.Subset.refl _)
          (List.subset_append_left x.waiting [])
        split
        · exact ho.less (hdone.then (goes_answer hdone.wf _ _ .leaderManager))
        · exact ho.less hdone
      · exact hself
    · exact hself
  | serve w h bs leader =>
    simp only [step]
    split
    · split_ifs
      · refine ho.less (goes_manager hwf (fun h' left' leader' waiting' heq b hb => ?_)
          (List.subset_append_of_subset_right _ (List.Subset.refl _)))
        obtain ⟨_, rfl, _⟩ := ManagerActivity.shutdown.inj heq
        simpa using (List.mem_filter.mp hb).2
      · exact ho.less (goes_answer hwf _ _ .leaderManager)
      · exact hself
    · exact ho.less (goes_answer hwf _ _ .leaderManager)
    · exact hself
  | cancel w bs leader =>
    simp only [step]
    split
    · refine ho.less (goes_manager hwf (fun h' left' leader' waiting' heq b hb => ?_)
        (List.subset_append_of_subset_right _ (List.Subset.refl _)))
      obtain ⟨_, rfl, _⟩ := ManagerActivity.shutdown.inj heq
      simpa using (List.mem_filter.mp hb).2
    · exact hself
  | proceed w =>
    simp only [step]
    split
    · rename_i h b left leader hm
      exact ordered_behavior hwf ho hm (by simpa [Careful, hm] using hc)
    · rename_i h hm
      exact ordered_tell hwf ho (by simpa [Careful, hm] using hc)
    · rename_i h hm
      have hidle : Goes owner s { s with managers := Function.update s.managers w .idle } (.manager w) [] :=
        goes_manager hwf (by simp) (List.nil_subset _)
      exact ho.less (hidle.then (goes_answer hidle.wf _ _ .leaderManager))
    · exact ho.less (goes_manager hwf (by simp) (List.nil_subset _))
    · exact hself
  | serveLeader h ws =>
    simp only [step]
    split
    · split_ifs
      · split
        · exact ho.less (goes_leader hwf (List.nil_subset _))
        · split_ifs
          · exact ho.less (goes_leader hwf (List.nil_subset _))
          · exact ho.less (goes_answer hwf _ _ .leaderManager)
        · exact ho.less (goes_answer hwf _ _ .leaderManager)
      · exact hself
    · exact hself
  | proceedLeader stop =>
    simp only [step]
    split
    · rename_i h left hl
      split
      · exact ordered_sendModel hwf ho _ _ (by simpa [Careful, hl] using hc)
      · have hidle : Goes owner s { s with leader := .idle } .leaderManager [] := goes_leader hwf (List.nil_subset _)
        exact ho.less (hidle.then (goes_answer hidle.wf _ _ .leaderManager))
    · exact hself
  | take b t =>
    simp only [step]
    by_cases hmem : .behavior b ∈ s.waits t
    · rw [if_pos hmem]
      split
      · split_ifs
        · have hended : Goes owner s { s with behaviors := Function.update s.behaviors b .ended } (.behavior b) [] :=
            goes_behavior hwf (List.nil_subset _)
          exact ho.less (hended.then (goes_answer hended.wf _ _ .leaderManager))
        · exact ho.less (goes_behavior hwf (List.nil_subset _))
      · exact ho.less (goes_answer hwf _ _ .leaderManager)
      · exact hself
    · rw [if_neg hmem]
      exact hself
  | call b r =>
    simp only [step]
    split
    · exact ordered_call hwf ho r _ hc
    · exact hself
  | done b =>
    simp only [step]
    split
    · have hidle : Goes owner s { s with behaviors := Function.update s.behaviors b .idle } (.behavior b) [] :=
        goes_behavior hwf (List.nil_subset _)
      exact ho.less (hidle.then (goes_answer hidle.wf _ _ .leaderManager))
    · exact hself

end

/-! ## Runs -/

theorem wf_start (owner : ℕ → WorkerId) : Wf owner System.start :=
  ⟨fun _ _ => rfl, fun _ _ h => absurd h (by simp [System.start]), fun _ _ _ _ _ h => absurd h (by simp [System.start])⟩

theorem ordered_start (owner : ℕ → WorkerId) : Ordered owner System.start := by
  intro t u hu
  have hnone : System.start.waits t = [] := by cases t <;> rfl
  exact absurd (hnone ▸ hu : u ∈ []) List.not_mem_nil

/-- **Deadlock freedom.** While every step is careful, no task waits, directly or through others, for itself: whatever
requests are in flight and however the tasks interleave. -/
theorem acyclic_run (owner : ℕ → WorkerId) (ops : List Op) (hc : Along (step owner) (Careful owner) System.start ops) :
    Acyclic (run (step owner) System.start ops).WaitsFor := by
  have hstep : ∀ s o, Wf owner s ∧ Ordered owner s → Careful owner s o →
      Wf owner (step owner s o) ∧ Ordered owner (step owner s o) := fun _ o ⟨hwf, ho⟩ hc => ordered_step hwf ho o hc
  have hinv := run_inv hstep ⟨wf_start owner, ordered_start owner⟩ hc
  exact acyclic_of_ordered hinv.1 hinv.2

/-- an event is sent to behavior 0 of worker 0, which takes it -/
def eventTaken : List Op :=
  [.request 0 .invoke, .skip 0, .ask 0 0 [] [], .serve 0 0 [] false, .ask 0 0 [] [], .serve 0 0 [] false,
    .ask 0 0 [] [], .serve 0 0 [] false, .ask 0 0 [0] [], .take 0 (.handler 0)]

/-- the worker is asked to shut down, and its manager turns to the behavior -/
def shutDown (h : ℕ) : List Op :=
  [.request 0 .shutdown, .ask h 0 [] [], .serve 0 h [0] true, .proceed 0]

/-- the manager waits until the script is through -/
theorem acyclic_shutdown : Acyclic (run (step fun _ => 0) System.start (eventTaken ++ shutDown 1)).WaitsFor :=
  acyclic_run (fun _ => 0) (eventTaken ++ shutDown 1)
    ⟨trivial, trivial, trivial, trivial, trivial, trivial, trivial, trivial, trivial, trivial, trivial, trivial,
      trivial, rfl, trivial⟩

/-- the script reads a variable when its worker is shut down: the manager waits for the behavior, the behavior for the
call and the call for the manager -/
theorem shutdown_deadlocks : ¬ ∀ (owner : ℕ → WorkerId) (ops : List Op),
    Acyclic (run (step owner) System.start ops).WaitsFor := by
  intro h
  let s := run (step fun _ => 0) System.start (eventTaken ++ [.call 0 .getVar, .ask 1 0 [] []] ++ shutDown 2)
  have hbehavior : s.WaitsFor (.manager 0) (.behavior 0) := by decide
  have hcall : s.WaitsFor (.behavior 0) (.handler 1) := by decide
  have hmanager : s.WaitsFor (.handler 1) (.manager 0) := by decide
  exact h (fun _ => 0) _ (.manager 0) (((Relation.TransGen.single hbehavior).tail hcall).tail hmanager)

end BigWorlds.Waiting
