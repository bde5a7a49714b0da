/-
Finite maps that are built from lists of entries, and joined.

- `foldl_insert_eq`: entries with distinct keys, inserted one after the other, are the map they are the entries of;
- `mem_foldl`: the keys of a map that is built entry by entry;
- `lookup_foldl_insert`, `entries_foldl_insert`: what a map holds that is built from entries with distinct keys, where
  some may be passed over;
- `entries_union`: the entries of two maps without a common key;
- `erase_eq_self`: erasing changes nothing exactly where the key is absent;
- `lookup_rekey`: some entries of a map under new keys.
-/
import Mathlib.Data.Finmap

namespace BigWorlds.Core.Maps

variable {κ ν ε : Type}

/-- where each step adds at most the key of its entry -/
theorem mem_foldl {step : Finmap (fun _ : κ => ν) → ε → Finmap fun _ : κ => ν} {key : ε → κ}
    (hstep : ∀ map e k, k ∈ step map e → k ∈ map ∨ k = key e) {l : List ε} {map : Finmap fun _ : κ => ν} {k : κ}
    (h : k ∈ l.foldl step map) : k ∈ map ∨ ∃ e ∈ l, k = key e := by
  induction l generalizing map with
  | nil => exact Or.inl h
  | cons e l ih =>
    rcases ih h with h | ⟨e', he', rfl⟩
    · rcases hstep map e k h with h | rfl
      · exact Or.inl h
      · exact Or.inr ⟨e, List.mem_cons_self, rfl⟩
    · exact Or.inr ⟨e', List.mem_cons_of_mem _ he', rfl⟩

variable [DecidableEq κ]

/-- entries with distinct keys give the map they are the entries of, over what was there -/
theorem foldl_insert_eq {l : List (Σ _ : κ, ν)} (h : l.NodupKeys) (map : Finmap fun _ : κ => ν) :
    l.foldl (fun map e => map.insert e.1 e.2) map = l.toFinmap ∪ map := by
  induction l generalizing map with
  | nil => rw [List.foldl_nil, Finmap.toFinmap_nil, Finmap.empty_union]
  | cons e l ih =>
    obtain ⟨hfresh, hl⟩ := List.nodupKeys_cons.mp h
    have hnot : e.1 ∉ l.toFinmap := by
      intro hmem
      obtain ⟨v, hv⟩ := Finmap.mem_iff.mp hmem
      rw [Finmap.dlookup_list_toFinmap] at hv
      have hentry : (⟨e.1, v⟩ : Σ _ : κ, ν) ∈ l := List.of_mem_dlookup (Option.mem_def.mpr hv)
      exact hfresh (List.mem_keys.mpr ⟨v, hentry⟩)
    rw [List.foldl_cons, ih hl, Finmap.toFinmap_cons, ← Finmap.insert_union]
    apply Finmap.ext_lookup
    intro a
    by_cases ha : a = e.1
    · subst ha
      rw [Finmap.lookup_union_right hnot, Finmap.lookup_insert, Finmap.lookup_insert]
    · rw [Finmap.lookup_insert_of_ne _ ha]
      by_cases hmem : a ∈ l.toFinmap
      · rw [Finmap.lookup_union_left hmem, Finmap.lookup_union_left hmem]
      · rw [Finmap.lookup_union_right hmem, Finmap.lookup_union_right hmem, Finmap.lookup_insert_of_ne _ ha]

theorem mem_entries_iff {m : Finmap fun _ : κ => ν} {e : Σ _ : κ, ν} : e ∈ m.entries ↔ m.lookup e.1 = some e.2 := by
  refine Finmap.induction_on m fun l => ?_
  rw [Finmap.lookup_toFinmap]
  exact (List.mem_dlookup_iff l.nodupKeys).symm

/-- where each entry inserts a value, or is passed over -/
theorem lookup_foldl_insert {l : List ε} {key : ε → κ} (val : ε → Option ν) (h : (l.map key).Nodup)
    (map : Finmap fun _ : κ => ν) {k : κ} {v : ν} :
    (l.foldl (fun map e => (val e).elim map (map.insert (key e))) map).lookup k = some v ↔
      (∃ e ∈ l, key e = k ∧ val e = some v) ∨ ((∀ e ∈ l, key e = k → val e = none) ∧ map.lookup k = some v) := by
  induction l generalizing map with
  | nil => simp
  | cons e l ih =>
    obtain ⟨hfresh, hl⟩ := List.nodup_cons.mp (List.map_cons ▸ h)
    have hother : ∀ e' ∈ l, key e' ≠ key e := fun e' he' heq => hfresh (List.mem_map.mpr ⟨e', he', heq⟩)
    rw [List.foldl_cons, ih hl]
    by_cases hk : key e = k
    · subst hk
      have hnone : ¬ ∃ e' ∈ l, key e' = key e ∧ val e' = some v := fun ⟨e', he', heq, _⟩ => hother e' he' heq
      have hall : ∀ e' ∈ l, key e' = key e → val e' = none := fun e' he' heq => absurd heq (hother e' he')
      cases hv : val e with
      | none => simp [hv, hnone]
      | some u => simpa [hv, hnone] using fun _ => hall
    · have hsame : ((val e).elim map (map.insert (key e))).lookup k = map.lookup k := by
        cases val e with
        | none => rfl
        | some u => exact Finmap.lookup_insert_of_ne _ (Ne.symm hk)
      simp [hsame, hk]

/-- the entries of a map that is built from entries with distinct keys -/
theorem entries_foldl_insert {l : List ε} {key : ε → κ} (val : ε → ν) (h : (l.map key).Nodup) :
    (l.foldl (fun map e => map.insert (key e) (val e)) (∅ : Finmap fun _ : κ => ν)).entries =
      ((l.map fun e => (⟨key e, val e⟩ : Σ _ : κ, ν)) : Multiset (Σ _ : κ, ν)) := by
  have hnodup : (l.map fun e => (⟨key e, val e⟩ : Σ _ : κ, ν)).Nodup := by
    refine List.Nodup.of_map Sigma.fst ?_
    rwa [List.map_map]
  refine (Multiset.Nodup.ext (Finmap.nodup_entries _) (Multiset.coe_nodup.mpr hnodup)).mpr fun e => ?_
  rw [mem_entries_iff, Multiset.mem_coe, List.mem_map]
  refine (lookup_foldl_insert (fun e => some (val e)) h ∅).trans ?_
  constructor
  · intro hin
    rcases hin with ⟨e', he', hkey, hval⟩ | ⟨_, hnone⟩
    · exact ⟨e', he', Sigma.ext hkey (heq_of_eq (Option.some.inj hval))⟩
    · cases hnone
  · intro ⟨e', he', heq⟩
    subst heq
    exact Or.inl ⟨e', he', rfl, rfl⟩

theorem entries_union {m m' : Finmap fun _ : κ => ν} (h : m.Disjoint m') :
    (m ∪ m').entries = m.entries + m'.entries := by
  have hdisjoint : Disjoint m.entries m'.entries := by
    rw [Multiset.disjoint_left]
    intro e he he'
    have hm : e.1 ∈ m := Finmap.mem_of_lookup_eq_some (mem_entries_iff.1 he)
    have hm' : e.1 ∈ m' := Finmap.mem_of_lookup_eq_some (mem_entries_iff.1 he')
    exact h e.1 hm hm'
  have hnodup : (m.entries + m'.entries).Nodup :=
    Multiset.nodup_add.mpr ⟨m.nodup_entries, m'.nodup_entries, hdisjoint⟩
  refine (Multiset.Nodup.ext (Finmap.nodup_entries _) hnodup).mpr fun e => ?_
  rw [Multiset.mem_add, mem_entries_iff, mem_entries_iff, mem_entries_iff]
  by_cases hm : e.1 ∈ m
  · have hm' : m'.lookup e.1 = none := Finmap.lookup_eq_none.mpr (h e.1 hm)
    rw [Finmap.lookup_union_left hm, hm']
    simp
  · have hm' : m.lookup e.1 = none := Finmap.lookup_eq_none.mpr hm
    rw [Finmap.lookup_union_right hm, hm']
    simp

theorem erase_eq_self {m : Finmap fun _ : κ => ν} {k : κ} : m.erase k = m ↔ k ∉ m := by
  constructor
  · intro h hmem
    rw [← h] at hmem
    exact Finmap.notMem_erase_self hmem
  · intro h
    refine Finmap.ext_lookup fun k' => ?_
    by_cases hk : k' = k
    · rw [hk, Finmap.lookup_erase, Finmap.lookup_eq_none.mpr h]
    · exact Finmap.lookup_erase_ne hk

/-! ## New keys -/

variable {κ' : Type}

/-- the entries of a map whose keys pass a test, under new keys -/
def rekey (m : Finmap fun _ : κ => ν) (test : κ → Bool) (f : κ → κ') (hf : Function.Injective f) :
    Finmap fun _ : κ' => ν where
  entries := (m.entries.filter fun e => test e.1).map (Sigma.map f fun _ => id)
  nodupKeys := by
    obtain ⟨entries, hnodup⟩ := m
    induction entries using Quotient.inductionOn with
    | _ l =>
      have hl : (l.filter fun e => decide (test e.1 = true)).NodupKeys :=
        List.NodupKeys.sublist List.filter_sublist (Multiset.coe_nodupKeys.mp hnodup)
      exact Multiset.coe_nodupKeys.mpr (hl.map₁ f hf)

variable [DecidableEq κ']

theorem lookup_rekey {m : Finmap fun _ : κ => ν} {test : κ → Bool} {f : κ → κ'} {hf : Function.Injective f} {k' : κ'}
    {v : ν} : (rekey m test f hf).lookup k' = some v ↔ ∃ k, f k = k' ∧ test k = true ∧ m.lookup k = some v := by
  rw [← mem_entries_iff (e := ⟨k', v⟩)]
  constructor
  · intro h
    obtain ⟨⟨k, u⟩, hk, heq⟩ := Multiset.mem_map.mp h
    obtain ⟨hmem, htest⟩ := Multiset.mem_filter.mp hk
    have hkey : f k = k' := congrArg Sigma.fst heq
    have hval : u = v := by
      subst hkey
      simpa [Sigma.map] using heq
    subst hval
    exact ⟨k, hkey, htest, mem_entries_iff.1 hmem⟩
  · intro ⟨k, hk, htest, hlookup⟩
    subst hk
    refine Multiset.mem_map.mpr ⟨⟨k, v⟩, Multiset.mem_filter.mpr ⟨?_, htest⟩, rfl⟩
    exact mem_entries_iff.2 hlookup

end BigWorlds.Core.Maps
