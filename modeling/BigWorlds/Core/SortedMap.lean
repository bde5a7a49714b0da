/-
Maps kept as lists of entries in the order of their keys, over any linear order of keys and any values.

- `collect`: entries inserted one after the other, the last one of a key standing;
- `collect_sorted`: the result is in order;
- `collect_eq_self`: entries that are in order are collected as they are.
-/
import Mathlib.Order.Lattice
import Mathlib.Data.List.Basic

namespace BigWorlds.Core.SortedMap

variable {κ ν : Type*} [LinearOrder κ]

/-- the entries are in the order of their keys, which are distinct -/
def Sorted (m : List (κ × ν)) : Prop := m.Pairwise fun a b => a.1 < b.1

/-- insertion, which replaces what the key had -/
def insert (k : κ) (v : ν) : List (κ × ν) → List (κ × ν)
  | [] => [(k, v)]
  | (k', v') :: rest =>
    if k < k' then (k, v) :: (k', v') :: rest
    else if k = k' then (k, v) :: rest
    else (k', v') :: insert k v rest

/-- insertion of all entries in their order -/
def collect (entries : List (κ × ν)) : List (κ × ν) := entries.foldl (fun m e => insert e.1 e.2 m) []

variable {k : κ} {v : ν} {m : List (κ × ν)} {e : κ × ν}

theorem mem_of_mem_insert (h : e ∈ insert k v m) : e = (k, v) ∨ e ∈ m := by
  induction m with
  | nil => exact Or.inl (List.mem_singleton.mp h)
  | cons hd rest ih =>
    rw [insert] at h
    split_ifs at h with h₁ h₂
    · exact List.mem_cons.mp h
    · rcases List.mem_cons.mp h with h | h
      · exact Or.inl h
      · exact Or.inr (List.mem_cons_of_mem _ h)
    · rcases List.mem_cons.mp h with h | h
      · exact Or.inr (h ▸ List.mem_cons_self)
      · exact (ih h).imp id (List.mem_cons_of_mem _)

theorem insert_sorted (k : κ) (v : ν) (h : Sorted m) : Sorted (insert k v m) := by
  induction m with
  | nil => exact List.pairwise_singleton _ _
  | cons hd rest ih =>
    obtain ⟨hhd, hrest⟩ := List.pairwise_cons.mp h
    rw [insert]
    split_ifs with h₁ h₂
    · refine List.pairwise_cons.mpr ⟨fun e he => ?_, h⟩
      rcases List.mem_cons.mp he with rfl | he
      · exact h₁
      · exact lt_trans h₁ (hhd e he)
    · exact List.pairwise_cons.mpr ⟨fun e he => h₂ ▸ hhd e he, hrest⟩
    · refine List.pairwise_cons.mpr ⟨fun e he => ?_, ih hrest⟩
      rcases mem_of_mem_insert he with rfl | he
      · exact lt_of_le_of_ne (not_lt.mp h₁) (Ne.symm h₂)
      · exact hhd e he

theorem foldl_insert_sorted (entries : List (κ × ν)) (h : Sorted m) :
    Sorted (entries.foldl (fun m e => insert e.1 e.2 m) m) := by
  induction entries generalizing m with
  | nil => exact h
  | cons e entries ih => exact ih (insert_sorted e.1 e.2 h)

theorem collect_sorted (entries : List (κ × ν)) : Sorted (collect entries) :=
  foldl_insert_sorted entries List.Pairwise.nil

/-- a key after all others is put at the end -/
theorem insert_last (h : ∀ e ∈ m, e.1 < k) : insert k v m = m ++ [(k, v)] := by
  induction m with
  | nil => rfl
  | cons hd rest ih =>
    have hhd : hd.1 < k := h hd List.mem_cons_self
    rw [insert, if_neg (not_lt.mpr hhd.le), if_neg hhd.ne', ih fun e he => h e (List.mem_cons_of_mem _ he)]
    rfl

theorem foldl_insert_append {entries : List (κ × ν)} (h : Sorted (m ++ entries)) :
    entries.foldl (fun m e => insert e.1 e.2 m) m = m ++ entries := by
  induction entries generalizing m with
  | nil => exact (List.append_nil m).symm
  | cons e entries ih =>
    have hlt : ∀ a ∈ m, a.1 < e.1 := fun a ha => (List.pairwise_append.mp h).2.2 a ha e List.mem_cons_self
    have hrest : Sorted ((m ++ [e]) ++ entries) := by simpa using h
    rw [List.foldl_cons, insert_last hlt, ih hrest, List.append_assoc, List.singleton_append]

theorem collect_eq_self (h : Sorted m) : collect m = m := foldl_insert_append (by simpa using h)

/-- only the keys count -/
theorem sorted_iff_keys : Sorted m ↔ (m.map Prod.fst).Pairwise (· < ·) := List.pairwise_map.symm

theorem mem_of_mem_foldl_insert {entries : List (κ × ν)} (h : e ∈ entries.foldl (fun m e => insert e.1 e.2 m) m) :
    e ∈ m ∨ e ∈ entries := by
  induction entries generalizing m with
  | nil => exact Or.inl h
  | cons hd entries ih =>
    rcases ih h with h | h
    · rcases mem_of_mem_insert h with rfl | h
      · exact Or.inr List.mem_cons_self
      · exact Or.inl h
    · exact Or.inr (List.mem_cons_of_mem _ h)

/-- nothing is made up -/
theorem mem_of_mem_collect {entries : List (κ × ν)} (h : e ∈ collect entries) : e ∈ entries :=
  (mem_of_mem_foldl_insert h).resolve_left List.not_mem_nil

end BigWorlds.Core.SortedMap
