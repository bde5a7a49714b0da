/-
Lists of definitions that are looked up by a key, the first match counting, and three ways to merge two of them.

- `Keeps`: the merged list finds the keys of both, keeps what the first one says, and has each key once;
- `keeps_append_iff`, `keeps_addNew_iff`, `keeps_left_iff`: when it does after appending the second list, after adding
  those of its elements whose key is new, and after ignoring it;
- `addNew_again`: adding the same elements again changes nothing;
- `flatMap_addNew`, `weight_eq_zero`: what adding new keys only passes over, where nothing may be lost.
-/
import Mathlib.Algebra.GroupWithZero.Nat
import Mathlib.Data.List.Nodup
import Mathlib.Data.List.Perm.Subperm

namespace BigWorlds.Core.Keyed

variable {α κ : Type} [DecidableEq κ]

/-- the first element with the key -/
def find (key : α → κ) (l : List α) (k : κ) : Option α := l.find? fun x => key x = k

structure Keeps (key : α → κ) (xs ys merged : List α) : Prop where
  found : ∀ z ∈ xs ++ ys, (find key merged (key z)).isSome = true
  kept : ∀ x ∈ xs, find key merged (key x) = find key xs (key x)
  once : (merged.map key).Nodup

/-- adds the elements whose key is new, one after the other -/
def addNew (key : α → κ) (xs ys : List α) : List α :=
  ys.foldl (fun l y => if l.any fun x => key x = key y then l else l ++ [y]) xs

variable {key : α → κ} {xs ys : List α}

theorem find_isSome {l : List α} {k : κ} : (find key l k).isSome = true ↔ k ∈ l.map key := by
  simp [find, List.find?_isSome]

/-- what the first list has is found there -/
theorem find_append {x : α} (h : x ∈ xs) (l : List α) : find key (xs ++ l) (key x) = find key xs (key x) := by
  have hsome : (find key xs (key x)).isSome = true := find_isSome.2 (List.mem_map_of_mem h)
  obtain ⟨z, hz⟩ := Option.isSome_iff_exists.mp hsome
  rw [find, List.find?_append, ← find, hz]
  rfl

/-- whatever is appended, the first list has each of its keys once -/
theorem Keeps.left {l : List α} (h : Keeps key xs ys (xs ++ l)) : (xs.map key).Nodup := by
  have honce := h.once
  rw [List.map_append] at honce
  exact honce.of_append_left

theorem keeps_append_iff : Keeps key xs ys (xs ++ ys) ↔ ((xs ++ ys).map key).Nodup :=
  ⟨Keeps.once, fun h => ⟨fun _ hz => find_isSome.2 (List.mem_map_of_mem hz), fun _ hx => find_append hx ys, h⟩⟩

theorem keeps_append_nil (h : (xs.map key).Nodup) (hys : ys = []) : Keeps key xs ys (xs ++ ys) := by
  rw [keeps_append_iff, hys, List.append_nil]
  exact h

theorem keeps_left_iff : Keeps key xs ys xs ↔ (xs.map key).Nodup ∧ ∀ y ∈ ys, key y ∈ xs.map key := by
  constructor
  · intro h
    exact ⟨h.once, fun y hy => find_isSome.1 (h.found y (List.mem_append_right xs hy))⟩
  · rintro ⟨hnodup, hin⟩
    refine ⟨fun z hz => find_isSome.2 ?_, fun _ _ => rfl, hnodup⟩
    rcases List.mem_append.mp hz with hz | hz
    · exact List.mem_map_of_mem hz
    · exact hin z hz

/-! ## New keys -/

/-- adding new keys appends some of the elements -/
theorem addNew_spec (key : α → κ) (xs ys : List α) : ∃ l, addNew key xs ys = xs ++ l ∧
    (∀ y ∈ ys, key y ∈ (xs ++ l).map key) ∧ ((xs.map key).Nodup → ((xs ++ l).map key).Nodup) := by
  induction ys generalizing xs with
  | nil => exact ⟨[], (List.append_nil xs).symm, by simp, by simp⟩
  | cons y ys ih =>
    by_cases hy : key y ∈ xs.map key
    · obtain ⟨l, hl, hin, hnodup⟩ := ih xs
      have hany : (xs.any fun x => key x = key y) = true := by simpa using hy
      refine ⟨l, ?_, ?_, hnodup⟩
      · rw [addNew, List.foldl_cons, if_pos hany]
        exact hl
      · rw [List.forall_mem_cons]
        exact ⟨by rw [List.map_append]; exact List.mem_append_left _ hy, hin⟩
    · obtain ⟨l, hl, hin, hnodup⟩ := ih (xs ++ [y])
      have hany : ¬ (xs.any fun x => key x = key y) = true := by simpa using hy
      rw [List.append_assoc] at hl hin hnodup
      refine ⟨[y] ++ l, ?_, ?_, fun hxs => hnodup ?_⟩
      · rw [addNew, List.foldl_cons, if_neg hany]
        exact hl
      · rw [List.forall_mem_cons]
        exact ⟨by simp, hin⟩
      · rw [List.map_append, List.map_singleton]
        exact List.nodup_append.mpr ⟨hxs, List.nodup_singleton _, fun k hk k' hk' heq =>
          hy (List.mem_singleton.mp hk' ▸ heq ▸ hk)⟩

theorem keeps_addNew_iff : Keeps key xs ys (addNew key xs ys) ↔ (xs.map key).Nodup := by
  obtain ⟨l, hl, hin, hnodup⟩ := addNew_spec key xs ys
  rw [hl]
  constructor
  · exact Keeps.left
  · intro h
    refine ⟨fun z hz => find_isSome.2 ?_, fun x hx => find_append hx l, hnodup h⟩
    rcases List.mem_append.mp hz with hz | hz
    · exact List.mem_map_of_mem (List.mem_append_left l hz)
    · exact hin z hz

/-- where no key is new, nothing is added -/
theorem addNew_eq_self (h : ∀ y ∈ ys, key y ∈ xs.map key) : addNew key xs ys = xs := by
  induction ys with
  | nil => rfl
  | cons y ys ih =>
    rw [List.forall_mem_cons] at h
    have hany : (xs.any fun x => key x = key y) = true := by simpa using h.1
    rw [addNew, List.foldl_cons, if_pos hany]
    exact ih h.2

theorem addNew_again (key : α → κ) (xs ys : List α) : addNew key (addNew key xs ys) ys = addNew key xs ys := by
  obtain ⟨l, hl, hin, _⟩ := addNew_spec key xs ys
  rw [hl]
  exact addNew_eq_self hin

theorem mem_addNew {z : α} (h : z ∈ addNew key xs ys) : z ∈ xs ∨ z ∈ ys := by
  induction ys generalizing xs with
  | nil => exact Or.inl h
  | cons y ys ih =>
    rw [addNew, List.foldl_cons] at h
    rcases ih h with h | h
    · split_ifs at h
      · exact Or.inl h
      · rcases List.mem_append.mp h with h | h
        · exact Or.inl h
        · exact Or.inr (List.mem_singleton.mp h ▸ List.mem_cons_self)
    · exact Or.inr (List.mem_cons_of_mem y h)

/-- where what is passed over has nothing, nothing is lost -/
theorem flatMap_addNew {β : Type} {get : α → List β}
    (h : ∀ y ∈ ys, key y ∈ xs.map key ∨ 2 ≤ (ys.map key).count (key y) → get y = []) :
    (addNew key xs ys).flatMap get = xs.flatMap get ++ ys.flatMap get := by
  induction ys generalizing xs with
  | nil => simp [addNew]
  | cons y ys ih =>
    have hmore : ∀ y' ∈ ys, 2 ≤ (ys.map key).count (key y') → 2 ≤ ((y :: ys).map key).count (key y') := by
      intro y' _ hcount
      rw [List.map_cons]
      exact Nat.le_trans hcount List.count_le_count_cons
    rw [addNew, List.foldl_cons, List.flatMap_cons]
    by_cases hy : key y ∈ xs.map key
    · have hany : (xs.any fun x => key x = key y) = true := by simpa using hy
      have hrest := @ih xs fun y' hy' hdrop => h y' (List.mem_cons_of_mem y hy') (hdrop.imp_right (hmore y' hy'))
      rw [if_pos hany, h y List.mem_cons_self (Or.inl hy), List.nil_append]
      exact hrest
    · have hany : ¬ (xs.any fun x => key x = key y) = true := by simpa using hy
      have hrest := @ih (xs ++ [y]) fun y' hy' hdrop => by
        apply h y' (List.mem_cons_of_mem y hy')
        rcases hdrop with hin | hcount
        · rw [List.map_append, List.mem_append, List.map_singleton, List.mem_singleton] at hin
          refine hin.imp_right fun heq => ?_
          have hpos : 0 < (ys.map key).count (key y') := List.count_pos_iff.mpr (List.mem_map_of_mem hy')
          rw [List.map_cons, ← heq, List.count_cons_self]
          omega
        · exact Or.inr (hmore y' hy' hcount)
      rw [if_neg hany]
      apply hrest.trans
      rw [List.flatMap_append, List.flatMap_singleton, List.append_assoc]

/-- the same keys once and with repetitions: where they weigh the same, what is repeated weighs nothing -/
theorem weight_eq_zero {weight : κ → ℕ} {once many : List κ} (hnodup : once.Nodup) (hsame : ∀ k, k ∈ once ↔ k ∈ many)
    (hsum : (once.map weight).sum = (many.map weight).sum) {k : κ} (hk : 2 ≤ many.count k) : weight k = 0 := by
  have hsub : once.Subperm many := List.subperm_of_subset hnodup fun k hk => (hsame k).mp hk
  have hperm : (once ++ many.diff once).Perm many :=
    List.subperm_append_diff_self_of_count_le (List.subperm_ext_iff.mp hsub)
  have hrest : ((many.diff once).map weight).sum = 0 := by
    have hall := (hperm.map weight).sum_nat
    rw [List.map_append, List.sum_append_nat] at hall
    omega
  have hmem : k ∈ many.diff once := by
    have hcount := hperm.count_eq k
    have hle := List.nodup_iff_count_le_one.mp hnodup k
    rw [List.count_append] at hcount
    exact List.count_pos_iff.mp (by omega)
  exact List.sum_eq_zero_iff_forall_eq_nat.mp hrest _ (List.mem_map_of_mem hmem)

end BigWorlds.Core.Keyed
