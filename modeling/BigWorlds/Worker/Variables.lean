/-
Reading variables back (`worker/manager.rs`, `SetVars` and `GetVar`; `entity/storage.rs`).

`SetVars` passes over an entity that is not in memory and ends at a variable that the entity does not have; a storage
knows a variable by its component and name, so two addresses that differ in the type alone write to the same place.

- `setVar_written`: what one pair does;
- `setVars_isOk`, `setVars_written`: when a list of pairs is accepted, and what it leaves;
- `reads_back_iff`: the exact condition;
- `writes_nothing`: a ball that is archived when its position is written.
-/
import BigWorlds.Worker.Listing

namespace BigWorlds

/-- the address is one of the variable at this index of this entity -/
def Address.Names (y : EntityName) (idx : StorageIndex) (a : Address) : Bool :=
  a.entity = y ∧ a.toLocal.asStorageIndex = idx

/-- the last value that the list gives for an address that passes the test -/
def lastGiven (test : Address → Bool) : List (Address × Var) → Option Var
  | [] => none
  | (a, v) :: pairs => lastGiven test pairs <|> if test a then some v else none

theorem lastGiven_isSome {test : Address → Bool} {pairs : List (Address × Var)} :
    (lastGiven test pairs).isSome = true ↔ ∃ p ∈ pairs, test p.1 = true := by
  induction pairs with
  | nil => simp [lastGiven]
  | cons p pairs ih =>
    rw [List.exists_mem_cons_iff, ← ih, lastGiven]
    cases lastGiven test pairs with
    | none => cases test p.1 <;> simp
    | some v => simp

/-- the errors of `GetVar`; the one of an entity that is not in memory carries the address -/
inductive GetVarError where
  | failedGettingVar (address : Address)
  | of (e : Error)
deriving DecidableEq, Repr

namespace WorkerState

/-- the arm of `GetVar` -/
def getVar (now : UInt32) (address : Address) (st : WorkerState) : WorkerState × Except GetVarError Var :=
  match st.part with
  | some part =>
    let st' := { st with part := some (part.getEntity now address.entity).1 }
    match (part.getEntity now address.entity).2 with
    | .ok entity => (st', (entity.storage.getVar address.toLocal.asStorageIndex).mapError .of)
    | .error _ => (st', .error (.failedGettingVar address))
  | none => (st, .error (.of (.workerNotInitialized "part not available")))

/-- a variable of an entity in memory -/
def liveVar (st : WorkerState) (y : EntityName) (idx : StorageIndex) : Option Var :=
  (st.inMemory y).bind (·.storage.map.lookup idx)

/-- a variable of an archived entity -/
def coldVar (st : WorkerState) (y : EntityName) (idx : StorageIndex) : Option Var :=
  (st.archived y).bind (·.storage.map.lookup idx)

/-- what `GetVar` answers is the variable in memory -/
theorem getVar_ok {now : UInt32} {address : Address} {st : WorkerState} {v : Var} :
    (st.getVar now address).2 = .ok v ↔ st.liveVar address.entity address.toLocal.asStorageIndex = some v := by
  unfold getVar liveVar inMemory
  cases hp : st.part with
  | none => simp
  | some part =>
    rcases part.getEntity_cases now address.entity with ⟨hnone, hget⟩ | ⟨e, hsome, hget⟩
    · simp [hget, hnone]
    · simp only [hget, hsome, Option.bind_some, Storage.getVar]
      cases e.storage.map.lookup address.toLocal.asStorageIndex with
      | none => simp [Except.mapError]
      | some u => simp [Except.mapError]

/-! ## Writing -/

/-- the pair's entity is in memory and does not have the variable -/
def Refuses (st : WorkerState) (a : Address) : Prop :=
  (st.inMemory a.entity).isSome = true ∧ st.liveVar a.entity a.toLocal.asStorageIndex = none

/-- an entity in memory takes the pair exactly if it has the variable -/
theorem setVar_isOk {a : Address} {v : Var} {st : WorkerState} {e : Entity} (h : st.inMemory a.entity = some e) :
    (setVar a v st).2 = .ok () ↔ (e.storage.map.lookup a.toLocal.asStorageIndex).isSome = true := by
  unfold setVar
  cases hp : st.part with
  | none => simp [inMemory, hp] at h
  | some part =>
    rw [inMemory, hp, Option.bind_some] at h
    simp only [h, Storage.setFromVar, Storage.getVar]
    cases e.storage.map.lookup a.toLocal.asStorageIndex with
    | none => exact iff_of_false (fun hok => by cases hok) (by simp)
    | some u => exact iff_of_true rfl rfl

/-- **One pair.** It is refused, or every variable that it does not name stays, and the one it names is written if the
entity is in memory. -/
theorem setVar_written (a : Address) (v : Var) (st : WorkerState) :
    (st.Refuses a ∧ (setVar a v st).1 = st ∧ ∃ err, (setVar a v st).2 = .error err) ∨
      (¬ st.Refuses a ∧ (setVar a v st).2 = .ok () ∧
        (∀ y, ((setVar a v st).1.inMemory y).isSome = (st.inMemory y).isSome) ∧
        ∀ y idx, (setVar a v st).1.liveVar y idx =
          if a.Names y idx && (st.inMemory y).isSome then some v else st.liveVar y idx) := by
  rcases setVar_spec a v st with ⟨hnone, hset⟩ | ⟨e, err, hsome, hset⟩ | ⟨e, hsome, hok, htouch, hhere, _⟩
  · -- not in memory: passed over
    refine Or.inr ⟨fun href => by simp [Refuses, hnone] at href, by rw [hset], fun y => by rw [hset], fun y idx => ?_⟩
    rw [hset]
    split_ifs with hnames
    · simp only [Address.Names, Bool.and_eq_true, decide_eq_true_eq] at hnames
      rw [← hnames.1.1, hnone] at hnames
      cases hnames.2
    · rfl
  · refine Or.inl ⟨⟨by rw [hsome]; rfl, ?_⟩, by rw [hset], err, by rw [hset]⟩
    have hnot := mt (setVar_isOk (v := v) hsome).mpr (by rw [hset]; simp)
    simpa [liveVar, hsome] using hnot
  · refine Or.inr ⟨?_, hok, fun y => ?_, fun y idx => ?_⟩
    · have hthere := (setVar_isOk hsome).mp hok
      intro href
      rw [Refuses, liveVar, hsome, Option.bind_some] at href
      rw [href.2] at hthere
      cases hthere
    · by_cases hy : y = a.entity
      · rw [hy, hhere, hsome]
        rfl
      · rw [htouch.inMemory y hy]
    · by_cases hy : y = a.entity
      · subst hy
        simp only [liveVar, hhere, hsome, Option.bind_some, Option.isSome_some, Bool.and_true, Address.Names]
        by_cases hidx : a.toLocal.asStorageIndex = idx
        · simp [hidx, Storage.insert]
        · simp [hidx, Storage.lookup_insert_ne _ _ (Ne.symm hidx)]
      · have hnames : a.Names y idx = false := by simp [Address.Names, Ne.symm hy]
        rw [hnames, Bool.false_and, liveVar, htouch.inMemory y hy]
        rfl

/-- a pair that is taken changes nothing about which pairs are refused -/
theorem setVar_refuses {a : Address} {v : Var} {st : WorkerState} (h : ¬ st.Refuses a) (b : Address) :
    (setVar a v st).1.Refuses b ↔ st.Refuses b := by
  rcases setVar_written a v st with ⟨hrefuses, _⟩ | ⟨_, _, hlive, hvars⟩
  · exact absurd hrefuses h
  · rw [Refuses, Refuses, hlive, hvars]
    refine and_congr_right fun hsome => ?_
    split_ifs with hnames
    · simp only [Address.Names, Bool.and_eq_true, decide_eq_true_eq] at hnames
      rw [Refuses, hnames.1.1, hnames.1.2] at h
      exact iff_of_false (by simp) fun hnone => h ⟨hsome, hnone⟩
    · exact Iff.rfl

/-- a list is accepted exactly if none of its pairs is refused -/
theorem setVars_isOk {pairs : List (Address × Var)} {st : WorkerState} :
    (setVars pairs st).2 = .ok () ↔ ∀ p ∈ pairs, ¬ st.Refuses p.1 := by
  induction pairs generalizing st with
  | nil => simp [setVars]
  | cons p pairs ih =>
    rw [List.forall_mem_cons, setVars]
    rcases setVar_written p.1 p.2 st with ⟨hrefuses, _, err, herr⟩ | ⟨hnot, hok, _⟩
    · generalize hset : setVar p.1 p.2 st = r at herr
      obtain ⟨st', answer⟩ := r
      simp only at herr
      subst herr
      exact iff_of_false (by simp) fun hall => hall.1 hrefuses
    · have hsame := fun b => setVar_refuses (v := p.2) hnot b
      generalize hset : setVar p.1 p.2 st = r at hok hsame
      obtain ⟨st', answer⟩ := r
      simp only at hok
      subst hok
      rw [ih]
      simp only [hsame, hnot, not_false_iff, true_and]

/-- what an accepted list leaves in the memory: the last value given for a variable, else the one before -/
theorem setVars_written {pairs : List (Address × Var)} {st : WorkerState} {y : EntityName}
    (hok : (setVars pairs st).2 = .ok ()) (hy : (st.inMemory y).isSome = true) (idx : StorageIndex) :
    (setVars pairs st).1.liveVar y idx = (lastGiven (·.Names y idx) pairs <|> st.liveVar y idx) := by
  induction pairs generalizing st with
  | nil => rfl
  | cons p pairs ih =>
    rw [setVars] at hok ⊢
    rcases setVar_written p.1 p.2 st with ⟨_, _, err, herr⟩ | ⟨_, hone, hlive, hvars⟩
    · generalize hset : setVar p.1 p.2 st = r at herr hok
      obtain ⟨st', answer⟩ := r
      simp only at herr
      subst herr
      cases hok
    · generalize hset : setVar p.1 p.2 st = r at hone hok hlive hvars
      obtain ⟨st', answer⟩ := r
      simp only at hone
      subst hone
      rw [ih hok ((hlive y).trans hy), hvars, hy, Bool.and_true, lastGiven]
      cases lastGiven (·.Names y idx) pairs with
      | some u => rfl
      | none => cases p.1.Names y idx <;> rfl

/-- a variable that no pair names stays, whatever the answer is -/
theorem setVars_unnamed {pairs : List (Address × Var)} {y : EntityName} {idx : StorageIndex}
    (h : ∀ p ∈ pairs, p.1.Names y idx = false) (st : WorkerState) :
    (setVars pairs st).1.liveVar y idx = st.liveVar y idx := by
  induction pairs generalizing st with
  | nil => rfl
  | cons p pairs ih =>
    obtain ⟨hp, hpairs⟩ := List.forall_mem_cons.mp h
    have hone : (setVar p.1 p.2 st).1.liveVar y idx = st.liveVar y idx := by
      rcases setVar_written p.1 p.2 st with ⟨_, hsame, _⟩ | ⟨_, _, _, hvars⟩
      · rw [hsame]
      · rw [hvars, hp, Bool.false_and]
        rfl
    unfold setVars
    split
    · rename_i st' heq
      rw [heq] at hone
      exact (ih hpairs st').trans hone
    · rename_i st' err heq
      rw [heq] at hone
      exact hone

/-! ## Reading back -/

/-- an accepted list is read back, each address with the last value given for it; a list with an entity that is not in
memory is not accepted; what no pair names is as before, in memory and in the archive -/
structure ReadsBack (st : WorkerState) (pairs : List (Address × Var)) : Prop where
  read : (setVars pairs st).2 = .ok () → ∀ p ∈ pairs, ∀ now, ∃ v, lastGiven (· = p.1) pairs = some v ∧
    ((setVars pairs st).1.getVar now p.1).2 = .ok v
  absent : ∀ p ∈ pairs, st.inMemory p.1.entity = none → (setVars pairs st).2 ≠ .ok ()
  unnamed : ∀ y idx, (∀ p ∈ pairs, p.1.Names y idx = false) →
    (setVars pairs st).1.liveVar y idx = st.liveVar y idx ∧ (setVars pairs st).1.coldVar y idx = st.coldVar y idx

/-- **Read your writes** holds exactly if some pair is refused, or every entity is in memory and no address gets
another value after its last one under another type. -/
theorem reads_back_iff (st : WorkerState) (pairs : List (Address × Var)) :
    ReadsBack st pairs ↔
      (∃ p ∈ pairs, (st.inMemory p.1.entity).isSome = true ∧
        st.liveVar p.1.entity p.1.toLocal.asStorageIndex = none) ∨
      ((∀ p ∈ pairs, (st.inMemory p.1.entity).isSome = true) ∧
        ∀ p ∈ pairs, lastGiven (·.Names p.1.entity p.1.toLocal.asStorageIndex) pairs =
          lastGiven (· = p.1) pairs) := by
  have hunnamed : ∀ y idx, (∀ p ∈ pairs, p.1.Names y idx = false) →
      (setVars pairs st).1.liveVar y idx = st.liveVar y idx ∧
        (setVars pairs st).1.coldVar y idx = st.coldVar y idx := by
    intro y idx h
    exact ⟨setVars_unnamed h st, by rw [coldVar, setVars_archived, coldVar]⟩
  have hgiven : ∀ p ∈ pairs, ∃ v, lastGiven (·.Names p.1.entity p.1.toLocal.asStorageIndex) pairs = some v := by
    intro p hp
    exact Option.isSome_iff_exists.mp (lastGiven_isSome.2 ⟨p, hp, by simp [Address.Names]⟩)
  have hanswer : (setVars pairs st).2 = .ok () → ∀ p ∈ pairs, (st.inMemory p.1.entity).isSome = true →
      ∀ now v, ((setVars pairs st).1.getVar now p.1).2 = .ok v ↔
        lastGiven (·.Names p.1.entity p.1.toLocal.asStorageIndex) pairs = some v := by
    intro hok p hp hmem now v
    obtain ⟨u, hu⟩ := hgiven p hp
    rw [getVar_ok, setVars_written hok hmem, hu]
    exact Iff.rfl
  constructor
  · intro h
    by_cases hok : (setVars pairs st).2 = .ok ()
    · have hmem : ∀ p ∈ pairs, (st.inMemory p.1.entity).isSome = true := by
        intro p hp
        by_contra hnone
        exact h.absent p hp (by simpa using hnone) hok
      refine Or.inr ⟨hmem, fun p hp => ?_⟩
      obtain ⟨v, hlast, hget⟩ := h.read hok p hp 0
      rw [hlast]
      exact (hanswer hok p hp (hmem p hp) 0 v).mp hget
    · rw [setVars_isOk] at hok
      push Not at hok
      exact Or.inl hok
  · intro h
    rcases h with ⟨p, hp, hrefuses⟩ | ⟨hmem, hlast⟩
    · have hfails : (setVars pairs st).2 ≠ .ok () := fun hok => setVars_isOk.1 hok p hp hrefuses
      exact ⟨fun hok => absurd hok hfails, fun _ _ _ => hfails, hunnamed⟩
    · refine ⟨fun hok p hp now => ?_, fun p hp hnone => ?_, hunnamed⟩
      · obtain ⟨v, hv⟩ := hgiven p hp
        exact ⟨v, (hlast p hp).symm.trans hv, (hanswer hok p hp (hmem p hp) now v).mpr hv⟩
      · have hsome := hmem p hp
        rw [hnone] at hsome
        cases hsome

/-! ## A write that goes nowhere -/

/-- a worker with a ball in its archive and nothing in memory -/
def archivedBall : WorkerState :=
  { config := .default, model := some ⟨[], [], [], []⟩, disk := ∅, leader := .unaware, otherWorkers := ∅,
    part := some ⟨∅, some (Finmap.singleton "ball" ⟨⟨Finmap.singleton ("position", "x") (.int 0)⟩, ["position"],
      ⟨none, none⟩⟩), ∅, [], .default⟩ }

theorem writes_nothing : ¬ ∀ (st : WorkerState) (pairs : List (Address × Var)), ReadsBack st pairs := by
  intro h
  have habsent := (h archivedBall [(⟨"ball", "position", .int, "x"⟩, .int 1)]).absent _ List.mem_cons_self rfl
  exact habsent rfl

end WorkerState

end BigWorlds
