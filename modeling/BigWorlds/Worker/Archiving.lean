/-
Archiving with a disk that may fail (`worker/part.rs`, `archive_entities`; the chore in `worker/manager.rs` only logs an
error).

The loop takes an entity out of the memory, then serializes it, then asks for the archive, then inserts; each of the
three may end the loop. `Disk` says how they end for an entity; an insertion that fails leaves the archive as it was.
With a disk that never fails this is `archiveEntities` (`archiveEntitiesOn_ok`).

- `moveOn_spec`: where each entity is after the loop;
- `idle_recent`: an entity with a recent access counts as idle only if the access is ahead of the clock;
- `archiving_loses_nothing_iff`: the exact condition;
- `archiving_loses`: an idle entity of a worker whose archive is switched off.

A write by `SetVars` does not stamp the access time, so the last access is the last read.
-/
import Mathlib.Data.Finset.Sort
import Mathlib.Data.List.TakeWhile
import Mathlib.Data.String.Basic
import BigWorlds.Worker.Residence

namespace BigWorlds

/-- how serializing an entity ends, and inserting it under its name -/
structure Disk where
  serialize : Entity → Except Error Unit
  insert : EntityName → Except Error Unit

def Disk.reliable : Disk := ⟨fun _ => .ok (), fun _ => .ok ()⟩

namespace Partition

/-- the loop over the entities to archive -/
def moveOn (disk : Disk) : List EntityName → Partition → Partition × Except Error Unit
  | [], part => (part, .ok ())
  | name :: names, part =>
    match part.entities.lookup name with
    | none => moveOn disk names part
    | some e =>
      let removed := { part with entities := part.entities.erase name }
      match disk.serialize e with
      | .error err => (removed, .error err)
      | .ok () =>
        match part.archive with
        | none => (removed, .error .archiveDisabled)
        | some a =>
          match disk.insert name with
          | .error err => (removed, .error err)
          | .ok () => moveOn disk names { removed with archive := some (a.insert name e) }

/-- the entities in memory that count as idle, in the order of the map -/
def toArchive (order : EntityOrder) (clock : EntityName → UInt32) (part : Partition) : List EntityName :=
  (order.names part.entities).filter fun name =>
    (part.entities.lookup name).any (·.idle part.config.archiveEntityAfterSecs (clock name))

/-- `archive_entities`; `clock` is the time when the loop looks at an entity -/
def archiveEntitiesOn (disk : Disk) (order : EntityOrder) (clock : EntityName → UInt32) (part : Partition) :
    Partition × Except Error ℕ :=
  if part.config.autoArchiveEntities then
    match part.moveOn disk (part.toArchive order clock) with
    | (part', .ok ()) => (part', .ok (part.toArchive order clock).length)
    | (part', .error e) => (part', .error e)
  else (part, .ok 0)

theorem moveOn_ok (names : List EntityName) (part : Partition) :
    part.moveOn .reliable names = part.moveToArchive names := by
  induction names generalizing part with
  | nil => rfl
  | cons name names ih =>
    unfold moveOn moveToArchive
    cases part.entities.lookup name with
    | none => exact ih part
    | some e =>
      cases part.archive with
      | none => rfl
      | some a => exact ih _

/-- with a disk that never fails -/
theorem archiveEntitiesOn_ok (order : EntityOrder) (clock : EntityName → UInt32) (part : Partition) :
    part.archiveEntitiesOn .reliable order clock = part.archiveEntities order clock := by
  unfold archiveEntitiesOn archiveEntities
  rw [moveOn_ok]
  rfl

/-! ## Where the entities are after the loop -/

/-- the entity can be written, and there is an archive to write it to -/
def Writes (disk : Disk) (part : Partition) (name : EntityName) : Bool :=
  (part.entities.lookup name).all fun e =>
    part.archive.isSome && (disk.serialize e).toBool && (disk.insert name).toBool

/-- the entity at which the loop ends with an error -/
def failsAt (writes : EntityName → Bool) (names : List EntityName) : Option EntityName :=
  names.find? fun name => !writes name

/-- the entities that leave the memory: those that are written, then the one at which the loop ends -/
def leaving (writes : EntityName → Bool) (names : List EntityName) : List EntityName :=
  names.takeWhile writes ++ (failsAt writes names).toList

theorem leaving_cons_of_pos {writes : EntityName → Bool} {name : EntityName} (h : writes name = true)
    (names : List EntityName) : leaving writes (name :: names) = name :: leaving writes names := by
  simp [leaving, failsAt, h]

theorem leaving_cons_of_neg {writes : EntityName → Bool} {name : EntityName} (h : ¬ writes name = true)
    (names : List EntityName) : leaving writes (name :: names) = [name] := by
  simp [leaving, failsAt, h]

theorem leaving_subset (writes : EntityName → Bool) (names : List EntityName) : leaving writes names ⊆ names := by
  intro name hname
  rcases List.mem_append.mp hname with h | h
  · exact (List.takeWhile_sublist writes).subset h
  · exact List.mem_of_find?_eq_some (Option.mem_toList.mp h)

/-- one turn of the loop: the entity is out of the memory, and in the archive if it can be written -/
theorem moveOn_cons {disk : Disk} {part : Partition} {name : EntityName} {e : Entity}
    (he : part.entities.lookup name = some e) (names : List EntityName) :
    (∃ a, part.Writes disk name = true ∧ part.archive = some a ∧ part.moveOn disk (name :: names) =
        moveOn disk names { part with entities := part.entities.erase name, archive := some (a.insert name e) }) ∨
      (part.Writes disk name = false ∧
        (part.moveOn disk (name :: names)).1 = { part with entities := part.entities.erase name }) := by
  unfold Writes
  rw [he]
  cases hs : disk.serialize e with
  | error err => exact Or.inr ⟨by simp [hs, Except.toBool], by simp [moveOn, he, hs]⟩
  | ok u =>
    cases ha : part.archive with
    | none => exact Or.inr ⟨by simp, by simp [moveOn, he, hs, ha]⟩
    | some a =>
      cases hi : disk.insert name with
      | error err => exact Or.inr ⟨by simp [Except.toBool], by simp [moveOn, he, hs, ha, hi]⟩
      | ok u' => exact Or.inl ⟨a, by simp [hs, Except.toBool], rfl, by simp [moveOn, he, hs, ha, hi]⟩

/-- **What the loop does with an entity.** It stays, or it ends the loop and is gone from the memory, or it is moved. -/
theorem moveOn_spec {disk : Disk} {names : List EntityName} {part : Partition} {writes : EntityName → Bool}
    (hnodup : names.Nodup) (hmem : ∀ n ∈ names, n ∈ part.entities)
    (hwrites : ∀ n ∈ names, writes n = part.Writes disk n) (y : EntityName) :
    (y ∉ leaving writes names ∧ (part.moveOn disk names).1.entities.lookup y = part.entities.lookup y ∧
        (part.moveOn disk names).1.archived y = part.archived y) ∨
      (failsAt writes names = some y ∧ (part.moveOn disk names).1.entities.lookup y = none ∧
        (part.moveOn disk names).1.archived y = part.archived y) ∨
      (y ∈ names.takeWhile writes ∧ (part.moveOn disk names).1.entities.lookup y = none ∧
        (part.moveOn disk names).1.archived y = part.entities.lookup y) := by
  induction names generalizing part with
  | nil => exact Or.inl ⟨by simp [leaving, failsAt], rfl, rfl⟩
  | cons n names ih =>
    obtain ⟨hfresh, hnodup⟩ := List.nodup_cons.mp hnodup
    obtain ⟨e, he⟩ := Finmap.mem_iff.mp (hmem n List.mem_cons_self)
    have hn := hwrites n List.mem_cons_self
    rcases moveOn_cons he names with ⟨a, hw, ha, hmove⟩ | ⟨hw, hmove⟩
    · rw [hw] at hn
      have hother : ∀ m ∈ names, m ≠ n := fun m hm heq => hfresh (heq ▸ hm)
      have hrest := @ih { part with entities := part.entities.erase n, archive := some (a.insert n e) } hnodup
        (fun m hm => Finmap.mem_erase.mpr ⟨hother m hm, hmem m (List.mem_cons_of_mem n hm)⟩)
        (fun m hm => by
          rw [hwrites m (List.mem_cons_of_mem n hm)]
          simp only [Writes, Finmap.lookup_erase_ne (hother m hm), ha, Option.isSome_some])
      have hlookup : ∀ {m}, m ≠ n → (part.entities.erase n).lookup m = part.entities.lookup m :=
        fun hm => Finmap.lookup_erase_ne hm
      have harchived : ∀ {m}, m ≠ n → Partition.archived { part with
          entities := part.entities.erase n, archive := some (a.insert n e) } m = part.archived m := by
        intro m hm
        simp only [Partition.archived, ha, Option.bind_some, Finmap.lookup_insert_of_ne _ hm]
      rw [hmove, leaving_cons_of_pos hn, failsAt, List.find?_cons_of_neg (by simp [hn]), ← failsAt,
        List.takeWhile_cons_of_pos hn]
      by_cases hy : y = n
      · subst hy
        refine Or.inr (Or.inr ⟨List.mem_cons_self, ?_⟩)
        rcases hrest with ⟨_, hstay, hkept⟩ | ⟨hfail, _⟩ | ⟨hin, _⟩
        · refine ⟨hstay.trans (Finmap.lookup_erase y part.entities), hkept.trans ?_⟩
          rw [he]
          exact Finmap.lookup_insert a
        · exact absurd (List.mem_of_find?_eq_some hfail) hfresh
        · exact absurd ((List.takeWhile_sublist _).subset hin) hfresh
      · rcases hrest with ⟨hnot, hstay, hkept⟩ | ⟨hfail, hgone, hkept⟩ | ⟨hin, hgone, hmoved⟩
        · exact Or.inl ⟨by simp [hy, hnot], hstay.trans (hlookup hy), hkept.trans (harchived hy)⟩
        · exact Or.inr (Or.inl ⟨hfail, hgone, hkept.trans (harchived hy)⟩)
        · exact Or.inr (Or.inr ⟨List.mem_cons_of_mem n hin, hgone, hmoved.trans (hlookup hy)⟩)
    · rw [hw] at hn
      rw [hmove, leaving_cons_of_neg (by simp [hn]), failsAt, List.find?_cons_of_pos (by simp [hn]),
        List.takeWhile_cons_of_neg (by simp [hn])]
      by_cases hy : y = n
      · subst hy
        exact Or.inr (Or.inl ⟨rfl, Finmap.lookup_erase _ _, rfl⟩)
      · exact Or.inl ⟨by simp [hy], Finmap.lookup_erase_ne hy, rfl⟩

/-! ## What archiving loses -/

end Partition

/-- the last access is at most the given seconds ago -/
def Entity.Recent (after now : UInt32) (e : Entity) : Prop :=
  ∃ lastAccess, e.meta_.lastAccess = some lastAccess ∧ now.toNat ≤ lastAccess.toNat + after.toNat

/-- an idle entity was accessed recently exactly if its last access is ahead of the clock -/
theorem Entity.idle_recent {after now : UInt32} {e : Entity} (h : e.idle after now = true) :
    e.Recent after now ↔ ∃ lastAccess, e.meta_.lastAccess = some lastAccess ∧ now < lastAccess := by
  unfold Entity.idle at h
  unfold Entity.Recent
  cases ht : e.meta_.lastAccess with
  | none => simp [ht] at h
  | some t =>
    have hidle : after.toNat < (now - t).toNat := by simpa [ht, UInt32.lt_iff_toNat_lt] using h
    have hwraps := UInt32.toNat_sub now t
    have hnow := now.toNat_lt
    have hlast := t.toNat_lt
    simp only [Option.some.injEq, exists_eq_left', UInt32.lt_iff_toNat_lt]
    omega

namespace Partition

/-- every entity that was in memory is still there or in the archive, with its storage and components, and a recent
one is still in memory -/
structure LosesNothing (clock : EntityName → UInt32) (part part' : Partition) : Prop where
  kept : ∀ name e, part.entities.lookup name = some e →
    ∃ e', (part'.entities.lookup name = some e' ∨ part'.archived name = some e') ∧ e'.data = e.data
  recent : ∀ name e, part.entities.lookup name = some e →
    e.Recent part.config.archiveEntityAfterSecs (clock name) → name ∈ part'.entities

theorem toArchive_idle {order : EntityOrder} {clock : EntityName → UInt32} {part : Partition} {name : EntityName}
    (h : name ∈ part.toArchive order clock) :
    ∃ e, part.entities.lookup name = some e ∧ e.idle part.config.archiveEntityAfterSecs (clock name) = true :=
  (Option.any_eq_true _ _).mp (List.mem_filter.mp h).2

theorem toArchive_nodup (order : EntityOrder) (clock : EntityName → UInt32) (part : Partition) :
    (part.toArchive order clock).Nodup := by
  have hnames : (order.names part.entities).Nodup := by
    rw [← Multiset.coe_nodup, order.complete]
    exact part.entities.keys.nodup
  exact hnames.filter _

theorem archiveEntitiesOn_fst {disk : Disk} {order : EntityOrder} {clock : EntityName → UInt32} {part : Partition}
    (h : part.config.autoArchiveEntities = true) :
    (part.archiveEntitiesOn disk order clock).1 = (part.moveOn disk (part.toArchive order clock)).1 := by
  unfold archiveEntitiesOn
  rw [if_pos h]
  split <;> rename_i heq <;> rw [heq]

theorem failsAt_notMem {writes : EntityName → Bool} {names : List EntityName} {name : EntityName}
    (h : failsAt writes names = some name) : name ∉ names.takeWhile writes := by
  intro hin
  have hnot := List.find?_some h
  simp [List.mem_takeWhile_imp hin] at hnot

/-- where the chore leaves an entity -/
theorem toArchive_spec (disk : Disk) (order : EntityOrder) (clock : EntityName → UInt32) (part : Partition)
    (y : EntityName) :
    let part' := (part.moveOn disk (part.toArchive order clock)).1
    (y ∉ leaving (part.Writes disk) (part.toArchive order clock) ∧
        part'.entities.lookup y = part.entities.lookup y ∧ part'.archived y = part.archived y) ∨
      (failsAt (part.Writes disk) (part.toArchive order clock) = some y ∧ part'.entities.lookup y = none ∧
        part'.archived y = part.archived y) ∨
      (y ∈ (part.toArchive order clock).takeWhile (part.Writes disk) ∧ part'.entities.lookup y = none ∧
        part'.archived y = part.entities.lookup y) := by
  refine moveOn_spec (toArchive_nodup order clock part) (fun n hn => ?_) (fun _ _ => rfl) y
  obtain ⟨e, he, _⟩ := toArchive_idle hn
  exact Finmap.mem_iff.mpr ⟨e, he⟩

/-- **Archiving loses nothing** exactly if the entity at which it ends with an error has a copy with the same content
in the archive, and no entity that leaves the memory has its last access ahead of the clock. -/
theorem archiving_loses_nothing_iff (disk : Disk) (order : EntityOrder) (clock : EntityName → UInt32)
    (part : Partition) :
    LosesNothing clock part (part.archiveEntitiesOn disk order clock).1 ↔
      (part.config.autoArchiveEntities = true →
        (∀ name e, failsAt (part.Writes disk) (part.toArchive order clock) = some name →
          part.entities.lookup name = some e → ∃ e', part.archived name = some e' ∧ e'.data = e.data) ∧
        ∀ name e lastAccess, name ∈ leaving (part.Writes disk) (part.toArchive order clock) →
          part.entities.lookup name = some e → e.meta_.lastAccess = some lastAccess → lastAccess ≤ clock name) := by
  by_cases hauto : part.config.autoArchiveEntities = true
  · rw [archiveEntitiesOn_fst hauto]
    have hspec := part.toArchive_spec disk order clock
    have hleaves : ∀ {y}, y ∈ leaving (part.Writes disk) (part.toArchive order clock) →
        y ∉ (part.moveOn disk (part.toArchive order clock)).1.entities := by
      intro y hy
      rcases hspec y with ⟨hnot, _⟩ | ⟨_, hgone, _⟩ | ⟨_, hgone, _⟩
      · exact absurd hy hnot
      · exact Finmap.lookup_eq_none.mp hgone
      · exact Finmap.lookup_eq_none.mp hgone
    constructor
    · intro h _
      refine ⟨?_, ?_⟩
      · intro name e hfail he
        obtain ⟨e', hthere, hdata⟩ := h.kept name e he
        rcases hspec name with ⟨hnot, _⟩ | ⟨_, hgone, hsame⟩ | ⟨hin, _⟩
        · exact absurd (List.mem_append_right _ (Option.mem_toList.mpr hfail)) hnot
        · rw [hgone, hsame] at hthere
          exact ⟨e', hthere.resolve_left (by simp), hdata⟩
        · exact absurd hin (failsAt_notMem hfail)
      · intro name e lastAccess hleave he hlast
        obtain ⟨e', he', hidle⟩ := toArchive_idle (leaving_subset _ _ hleave)
        obtain rfl : e' = e := Option.some.inj (he'.symm.trans he)
        by_contra hahead
        have hrecent := (Entity.idle_recent hidle).mpr ⟨lastAccess, hlast, UInt32.not_le.mp hahead⟩
        exact hleaves hleave (h.recent name e' he hrecent)
    · intro h
      obtain ⟨hfailed, hclock⟩ := h hauto
      refine ⟨?_, ?_⟩
      · intro name e he
        rcases hspec name with ⟨_, hstay, _⟩ | ⟨hfail, _, hsame⟩ | ⟨_, _, hmoved⟩
        · exact ⟨e, Or.inl (hstay.trans he), rfl⟩
        · obtain ⟨e', hthere, hdata⟩ := hfailed name e hfail he
          exact ⟨e', Or.inr (hsame.trans hthere), hdata⟩
        · exact ⟨e, Or.inr (hmoved.trans he), rfl⟩
      · intro name e he hrecent
        by_cases hleave : name ∈ leaving (part.Writes disk) (part.toArchive order clock)
        · obtain ⟨e', he', hidle⟩ := toArchive_idle (leaving_subset _ _ hleave)
          obtain rfl : e' = e := Option.some.inj (he'.symm.trans he)
          obtain ⟨lastAccess, hlast, hahead⟩ := (Entity.idle_recent hidle).mp hrecent
          exact absurd (hclock name e' lastAccess hleave he hlast) (UInt32.not_le.mpr hahead)
        · rcases hspec name with ⟨_, hstay, _⟩ | ⟨hfail, _⟩ | ⟨hin, _⟩
          · exact Finmap.mem_iff.mpr ⟨e, hstay.trans he⟩
          · exact absurd (List.mem_append_right _ (Option.mem_toList.mpr hfail)) hleave
          · exact absurd (List.mem_append_left _ hin) hleave
  · have hsame : (part.archiveEntitiesOn disk order clock).1 = part := by
      unfold archiveEntitiesOn
      rw [if_neg hauto]
    rw [hsame]
    refine iff_of_true ⟨?_, ?_⟩ fun h => absurd h hauto
    · exact fun name e he => ⟨e, Or.inl he, rfl⟩
    · exact fun name e he _ => Finmap.mem_iff.mpr ⟨e, he⟩

/-! ## An archive that is switched off -/

/-- the names in alphabetical order -/
def EntityOrder.sorted : EntityOrder := ⟨fun map => map.keys.sort, fun map => map.keys.sort_eq _⟩

theorem EntityOrder.names_single (order : EntityOrder) (name : EntityName) (e : Entity) :
    order.names (Finmap.singleton name e) = [name] :=
  Multiset.coe_eq_singleton.mp (order.complete (Finmap.singleton name e))

/-- a ball that was read at second 0, and no archive -/
def unarchived : Partition :=
  ⟨Finmap.singleton "ball" ⟨.default, ["ball"], ⟨none, some 0⟩⟩, none, ∅, [], ⟨false, true, 5, false⟩⟩

theorem archiving_loses : ¬ ∀ (disk : Disk) (order : EntityOrder) (clock : EntityName → UInt32) (part : Partition),
    LosesNothing clock part (part.archiveEntitiesOn disk order clock).1 := by
  intro h
  have hkept := (h .reliable .sorted (fun _ => 10) unarchived).kept "ball" _ rfl
  have hidle : unarchived.toArchive .sorted (fun _ => 10) = ["ball"] := by
    unfold toArchive
    rw [show unarchived.entities = Finmap.singleton "ball" _ from rfl, EntityOrder.names_single]
    rfl
  rw [archiveEntitiesOn_fst rfl, hidle] at hkept
  obtain ⟨e', hthere | hthere, _⟩ := hkept
  · cases hthere
  · cases hthere

end Partition

end BigWorlds
