/-
Removing an entity from a partition (`worker/part.rs`, `remove_entity`).

The behaviors bound to the entity are dropped before anything is known about it. Then a copy in memory decides; with
none there the archive is told to remove the name, which also succeeds where it has none, and a partition without an
archive answers `ArchiveDisabled`.

- `removesExactly_iff`: the exact condition in one state;
- `removal_exact_iff`: the same for the removals of a run, from any partition;
- `removes_a_ghost`: a fresh partition removes an entity that never was.

A machine that was spawned for an entity is not bound to it: its handle has no target.
-/
import BigWorlds.Core.Maps
import BigWorlds.Worker.Residence

namespace BigWorlds

namespace Partition

/-- removing the name is exact, and atomic -/
structure RemovesExactly (part : Partition) (name : EntityName) : Prop where
  found : (part.removeEntity name).2 = .ok () ↔ name ∈ part.entities ∨ (part.archived name).isSome = true
  gone : (part.removeEntity name).2 = .ok () →
    name ∉ (part.removeEntity name).1.entities ∧ (part.removeEntity name).1.archived name = none ∧
      BehaviorTarget.entity name ∉ (part.removeEntity name).1.behaviors
  unchanged : ∀ err, (part.removeEntity name).2 = .error err → (part.removeEntity name).1 = part

/-- what is in memory is not in the archive too; what is not in memory is in the archive, or, without an archive, has
no behaviors -/
def InOnePlace (part : Partition) (name : EntityName) : Prop :=
  if name ∈ part.entities then part.archived name = none
  else if part.archive.isSome = true then (part.archived name).isSome = true
  else BehaviorTarget.entity name ∉ part.behaviors

/-- **One removal.** -/
theorem removesExactly_iff (part : Partition) (name : EntityName) :
    RemovesExactly part name ↔ InOnePlace part name := by
  unfold InOnePlace
  rcases part.removeEntity_cases name with ⟨hm, hremove⟩ | ⟨hm, ha, hremove⟩ | ⟨a, hm, ha, hremove⟩
  · rw [if_pos hm]
    constructor
    · intro h
      have hgone := (h.gone (by rw [hremove])).2.1
      rw [hremove] at hgone
      exact hgone
    · intro hnone
      refine ⟨?_, ?_, ?_⟩
      · rw [hremove]
        exact iff_of_true rfl (Or.inl hm)
      · intro _
        rw [hremove]
        exact ⟨Finmap.notMem_erase_self, hnone, Finmap.notMem_erase_self⟩
      · intro err herr
        rw [hremove] at herr
        cases herr
  · rw [if_neg hm, if_neg (by simp [ha])]
    constructor
    · intro h
      have hsame := h.unchanged .archiveDisabled (by rw [hremove])
      rw [hremove] at hsame
      exact Core.Maps.erase_eq_self.mp (congrArg Partition.behaviors hsame)
    · intro hnone
      refine ⟨?_, ?_, ?_⟩
      · rw [hremove]
        simp [hm, Partition.archived, ha]
      · intro hok
        rw [hremove] at hok
        cases hok
      · intro err _
        rw [hremove]
        simp only [Core.Maps.erase_eq_self.mpr hnone]
  · rw [if_neg hm, if_pos (by simp [ha])]
    constructor
    · intro h
      exact (h.found.mp (by rw [hremove])).resolve_left hm
    · intro hthere
      refine ⟨?_, ?_, ?_⟩
      · rw [hremove]
        exact iff_of_true rfl (Or.inr hthere)
      · intro _
        rw [hremove]
        exact ⟨hm, Finmap.lookup_erase name a, Finmap.notMem_erase_self⟩
      · intro err herr
        rw [hremove] at herr
        cases herr

end Partition

/-- **Removal is exact and atomic.** Along a run from any partition, every removal answers Ok exactly for a name that
is held, leaves neither a copy nor a behavior of it, and changes nothing when it answers an error, if and only if each
name that is removed is in one place then: in memory and not in the archive, or in the archive; or, without an archive,
nowhere and with no behavior. -/
theorem removal_exact_iff (part : Partition) (ops : List PartOp) :
    (∀ n name, ops[n]? = some (.removeEntity name) →
        (Core.run (fun part op => PartOp.step part op) part (ops.take n)).RemovesExactly name) ↔
      Core.Along (fun part op => PartOp.step part op)
        (fun part op => ∀ name, op = .removeEntity name → part.InOnePlace name) part ops := by
  rw [Core.along_iff]
  constructor
  · intro h n op hop name hname
    subst hname
    exact (Partition.removesExactly_iff _ name).mp (h n name hop)
  · intro h n name hop
    exact (Partition.removesExactly_iff _ name).mpr (h n _ hop name rfl)

/-! ## An entity that never was -/

theorem removes_a_ghost : ¬ ∀ (load : Loader) (model : Model) (config : PartConfig)
    (disk : FnvHashMap EntityName Entity) (ops : List PartOp) (name : EntityName),
    (Core.run (fun part op => PartOp.step part op) (.fromModel load model config disk) ops).RemovesExactly name := by
  intro h
  have hghost := h (fun _ => .ok ()) ⟨[], [], [], []⟩ .default ∅ [] "ghost"
  rcases hghost.found.mp rfl with hmem | harchived
  · exact Finmap.notMem_empty hmem
  · cases harchived

end BigWorlds
