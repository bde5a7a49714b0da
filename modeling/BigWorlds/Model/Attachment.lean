/-
Attaching and detaching components (`entity/mod.rs`, `entity/storage.rs`).

`attach` appends the component to the list without looking whether it is there, and writes its variables. `detach`
removes from the list what a binary search for the name returns, although the list is in the order of attachment, and
then drops every variable of the component. What the search returns on a list that is not sorted is not specified, so
it is an argument: `BinarySearch` is what is known of it.

- `attach_agrees`, `detach_agrees`: when each of the two keeps list and storage in agreement;
- `components_agree_iff`: the exact condition along a run;
- `detach_sorted`: on a sorted list the search is right;
- `attached_twice`: a component that is attached twice.
-/
import BigWorlds.Core.Maps
import BigWorlds.Core.Run
import BigWorlds.Model.Entity

namespace BigWorlds

/-- the search of the standard library: it answers an index of the list, on a sorted list that of an equal element, and
none on a sorted list only where there is no equal element -/
structure BinarySearch where
  find : List CompName → CompName → Option ℕ
  bounded : ∀ l x i, find l x = some i → i < l.length
  found : ∀ l x i, l.Pairwise (· ≤ ·) → find l x = some i → l[i]? = some x
  missed : ∀ l x, l.Pairwise (· ≤ ·) → find l x = none → x ∉ l

/-- drops all variables of the component -/
def Storage.removeCompVars (s : Storage) (comp : CompName) : Storage :=
  ⟨Core.Maps.rekey s.map (fun idx => idx.1 ≠ comp) id Function.injective_id⟩

namespace Entity

def detach (search : BinarySearch) (e : Entity) (comp : CompName) : Entity :=
  { e with
    components := match search.find e.components comp with
      | some idx => e.components.eraseIdx idx
      | none => e.components
    storage := e.storage.removeCompVars comp }

/-- the variables in storage -/
def vars (e : Entity) (idx : StorageIndex) : Prop := (e.storage.map.lookup idx).isSome = true

theorem detach_vars {search : BinarySearch} {e : Entity} {comp : CompName} {idx : StorageIndex} :
    (e.detach search comp).vars idx ↔ e.vars idx ∧ idx.1 ≠ comp := by
  simp only [vars, Option.isSome_iff_exists, detach, Storage.removeCompVars, Core.Maps.lookup_rekey, id,
    decide_eq_true_eq]
  constructor
  · rintro ⟨v, idx', rfl, hne, hv⟩
    exact ⟨⟨v, hv⟩, hne⟩
  · rintro ⟨⟨v, hv⟩, hne⟩
    exact ⟨v, idx, rfl, hne, hv⟩

/-- a component that the model does not have is refused and nothing changes -/
theorem attach_error {e : Entity} {comp : CompName} {model : Model} {err : Error}
    (h : model.getComponent comp = .error err) : e.attach comp model = .error err := by
  simp only [attach, h, bind, Except.bind]

theorem attach_ok {e : Entity} {comp : CompName} {model : Model} {compModel : Component}
    (h : model.getComponent comp = .ok compModel) :
    ∃ e', e.attach comp model = .ok e' ∧ e'.components = e.components ++ [comp] ∧
      ∀ idx, e'.vars idx ↔ e.vars idx ∨ idx.1 = comp ∧ ∃ v ∈ compModel.vars, v.name = idx.2 := by
  refine ⟨_, by simp only [attach, h, bind, Except.bind]; rfl, rfl, fun idx => ?_⟩
  simp only [vars]
  generalize e.storage = storage
  induction compModel.vars generalizing storage with
  | nil => simp
  | cons v vs ih =>
    rw [List.foldl_cons, ih, List.exists_mem_cons_iff]
    by_cases hidx : idx = (comp, v.name)
    · subst hidx
      simp
    · rw [Storage.lookup_insert_ne _ _ hidx]
      have hnot : ¬ (idx.1 = comp ∧ v.name = idx.2) := fun hboth => hidx (Prod.ext hboth.1 hboth.2.symm)
      tauto

end Entity

/-! ## Agreement -/

/-- an entity, and the components that were attached to it and not detached since -/
structure Attaching where
  entity : Entity
  attached : Finset CompName
deriving DecidableEq

inductive CompOp where
  | attach (comp : CompName)
  | detach (comp : CompName)
deriving DecidableEq, Repr

namespace Attaching

def start : Attaching := ⟨.empty, ∅⟩

def step (search : BinarySearch) (model : Model) (st : Attaching) : CompOp → Attaching
  | .attach comp =>
    match st.entity.attach comp model with
    | .ok e => ⟨e, insert comp st.attached⟩
    | .error _ => st
  | .detach comp => ⟨st.entity.detach search comp, st.attached.erase comp⟩

/-- the list has each component that is attached, once; the variables of its components are in storage, and no others
are -/
structure Agrees (model : Model) (st : Attaching) : Prop where
  nodup : st.entity.components.Nodup
  listed : ∀ comp, comp ∈ st.entity.components ↔ comp ∈ st.attached
  present : ∀ comp ∈ st.entity.components, ∀ compModel, model.getComponent comp = .ok compModel →
    ∀ v ∈ compModel.vars, st.entity.vars (comp, v.name)
  absent : ∀ idx, st.entity.vars idx → idx.1 ∈ st.entity.components

/-- a component that the model has is attached only where it is not listed; for one that is detached the search gives
its place, or nothing where it is not listed -/
def Proper (search : BinarySearch) (model : Model) (st : Attaching) : CompOp → Prop
  | .attach comp => (∃ compModel, model.getComponent comp = .ok compModel) → comp ∉ st.entity.components
  | .detach comp =>
    match search.find st.entity.components comp with
    | some idx => st.entity.components[idx]? = some comp
    | none => comp ∉ st.entity.components

theorem attach_agrees {search : BinarySearch} {model : Model} {st : Attaching} (h : Agrees model st)
    (comp : CompName) : Agrees model (step search model st (.attach comp)) ↔
      Proper search model st (.attach comp) := by
  simp only [step, Proper]
  cases hmodel : model.getComponent comp with
  | error err =>
    rw [Entity.attach_error hmodel]
    exact iff_of_true h fun hhas => by simp at hhas
  | ok compModel =>
    obtain ⟨e', hattach, hcomps, hvars⟩ := @Entity.attach_ok st.entity _ _ _ hmodel
    rw [hattach]
    constructor
    · intro hagrees _ hin
      have hnodup := hagrees.nodup
      simp only [hcomps] at hnodup
      exact (List.nodup_append.mp hnodup).2.2 comp hin comp List.mem_cons_self rfl
    · intro hnew
      have hfresh : comp ∉ st.entity.components := hnew ⟨compModel, rfl⟩
      refine ⟨?_, fun c => ?_, fun c hc cm hcm v hv => ?_, fun idx hidx => ?_⟩
      · simp only [hcomps]
        exact List.nodup_append.mpr ⟨h.nodup, List.nodup_singleton comp, fun a ha b hb heq =>
          hfresh (List.mem_singleton.mp hb ▸ heq ▸ ha)⟩
      · simp only [hcomps, List.mem_append, List.mem_singleton, Finset.mem_insert, h.listed]
        exact or_comm
      · rw [hvars]
        simp only [hcomps, List.mem_append, List.mem_singleton] at hc
        rcases hc with hc | rfl
        · exact Or.inl (h.present c hc cm hcm v hv)
        · obtain rfl : compModel = cm := Except.ok.inj (hmodel.symm.trans hcm)
          exact Or.inr ⟨rfl, v, hv, rfl⟩
      · simp only [hcomps, List.mem_append, List.mem_singleton]
        rcases (hvars idx).mp hidx with hold | ⟨hcomp, _⟩
        · exact Or.inl (h.absent idx hold)
        · exact Or.inr hcomp

/-- the list loses the element that the search returns -/
theorem detach_agrees {search : BinarySearch} {model : Model} {st : Attaching} (h : Agrees model st)
    (comp : CompName) : Agrees model (step search model st (.detach comp)) ↔
      Proper search model st (.detach comp) := by
  simp only [step, Proper]
  -- where exactly the component leaves the list, everything agrees
  have hagrees : ∀ comps, (st.entity.detach search comp).components = comps → comps.Nodup →
      (∀ c, c ∈ comps ↔ c ∈ st.entity.components ∧ c ≠ comp) →
      Agrees model ⟨st.entity.detach search comp, st.attached.erase comp⟩ := by
    intro comps hcomps hnodup hmem
    refine ⟨by rw [hcomps]; exact hnodup, fun c => ?_, fun c hc cm hcm v hv => ?_, fun idx hidx => ?_⟩
    · rw [hcomps, hmem, h.listed, Finset.mem_erase]
      exact and_comm
    · rw [hcomps, hmem] at hc
      exact Entity.detach_vars.2 ⟨h.present c hc.1 cm hcm v hv, hc.2⟩
    · obtain ⟨hold, hne⟩ := Entity.detach_vars.1 hidx
      rw [hcomps, hmem]
      exact ⟨h.absent idx hold, hne⟩
  cases hfind : search.find st.entity.components comp with
  | none =>
    have hcomps : (st.entity.detach search comp).components = st.entity.components := by
      simp only [Entity.detach, hfind]
    constructor
    · intro hafter hin
      have hgone := (hafter.listed comp).mp (by rw [hcomps]; exact hin)
      exact absurd hgone (Finset.notMem_erase comp st.attached)
    · intro hnot
      exact hagrees _ hcomps h.nodup fun c => ⟨fun hc => ⟨hc, fun heq => hnot (heq ▸ hc)⟩, And.left⟩
  | some idx =>
    have hcomps : (st.entity.detach search comp).components = st.entity.components.eraseIdx idx := by
      simp only [Entity.detach, hfind]
    have hbound := search.bounded _ _ _ hfind
    have herase := h.nodup.erase_getElem idx hbound
    have hmem : ∀ c, c ∈ st.entity.components.eraseIdx idx ↔
        c ∈ st.entity.components ∧ c ≠ st.entity.components[idx] := by
      intro c
      rw [← herase, h.nodup.mem_erase_iff]
      exact and_comm
    constructor
    · intro hafter
      have hthere : st.entity.components[idx] ∈ st.entity.components := List.getElem_mem hbound
      by_contra hother
      have hne : st.entity.components[idx] ≠ comp := by
        intro heq
        exact hother (List.getElem?_eq_some_iff.mpr ⟨hbound, heq⟩)
      have hin := (hafter.listed _).mpr (Finset.mem_erase.mpr ⟨hne, (h.listed _).mp hthere⟩)
      rw [hcomps, hmem] at hin
      exact hin.2 rfl
    · intro hplace
      obtain ⟨_, hcomp⟩ := List.getElem?_eq_some_iff.mp hplace
      exact hagrees _ hcomps (h.nodup.eraseIdx idx) (hcomp ▸ hmem)

/-- on a sorted list the search is right -/
theorem detach_sorted {search : BinarySearch} {model : Model} {st : Attaching} {comp : CompName}
    (h : st.entity.components.Pairwise (· ≤ ·)) : Proper search model st (.detach comp) := by
  simp only [Proper]
  cases hfind : search.find st.entity.components comp with
  | some idx => exact search.found _ _ _ h hfind
  | none => exact search.missed _ _ h hfind

theorem start_agrees (model : Model) : Agrees model start := by
  refine ⟨List.nodup_nil, fun comp => ?_, fun comp hcomp => ?_, fun idx hidx => ?_⟩
  · exact iff_of_false List.not_mem_nil (Finset.notMem_empty comp)
  · cases hcomp
  · cases hidx

/-- **Components and storage agree** after every step of a run that starts with an empty entity, if and only if each
component that is attached is not listed then, and for each that is detached the search in the list gives its place,
or nothing where it is not listed. -/
theorem components_agree_iff (search : BinarySearch) (model : Model) (ops : List CompOp) :
    (∀ n, Agrees model (Core.run (step search model) start (ops.take n))) ↔
      Core.Along (step search model) (Proper search model) start ops := by
  have hstep : ∀ st op, Agrees model st → (Agrees model (step search model st op) ↔ Proper search model st op) := by
    intro st op h
    cases op with
    | attach comp => exact attach_agrees h comp
    | detach comp => exact detach_agrees h comp
  exact Core.run_inv_iff hstep (start_agrees model)

/-! ## Twice the same component -/

/-- a search from the front -/
def linear : BinarySearch where
  find l x := l.findIdx? (· = x)
  bounded l x i h := (List.findIdx?_eq_some_iff_getElem.mp h).1
  found l x i _ h := by
    obtain ⟨hi, hx, _⟩ := List.findIdx?_eq_some_iff_getElem.mp h
    exact List.getElem?_eq_some_iff.mpr ⟨hi, by simpa using hx⟩
  missed l x _ h := by
    intro hx
    simpa using List.findIdx?_eq_none_iff.mp h x hx

theorem attached_twice : ¬ ∀ (search : BinarySearch) (model : Model) (ops : List CompOp),
    Agrees model (Core.run (step search model) start ops) := by
  intro h
  have hnodup := (h linear ⟨[], [⟨"ball", []⟩], [], []⟩ [.attach "ball", .attach "ball"]).nodup
  exact absurd hnodup (by decide)

end Attaching

end BigWorlds
