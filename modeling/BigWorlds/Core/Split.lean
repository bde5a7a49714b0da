/-
Texts made of parts between separators, as `str::split` and `format!` have them. Nothing here is about a particular
format.

- `split_joined`: parts without the separator come back, unless there are none;
- `joined_split`: a text is its parts joined, and no part has the separator in it (`not_mem_of_mem_split`).
-/
import Mathlib.Data.List.Basic

namespace BigWorlds.Core

/-- the parts of a text between the separators -/
def split (sep : Char) (s : String) : List String := (s.toList.splitOn sep).map String.ofList

/-- parts with the separator between them -/
def joined (sep : Char) (parts : List String) : String := String.ofList ([sep].intercalate (parts.map String.toList))

variable {sep : Char} {parts : List String} {s part : String}

theorem map_toList_split (sep : Char) (s : String) : (split sep s).map String.toList = s.toList.splitOn sep := by
  simp [split, Function.comp_def]

theorem split_joined (hne : parts ≠ []) (h : ∀ part ∈ parts, sep ∉ part.toList) :
    split sep (joined sep parts) = parts := by
  have hmap : ∀ l ∈ parts.map String.toList, sep ∉ l := by
    intro l hl
    obtain ⟨part, hpart, rfl⟩ := List.mem_map.mp hl
    exact h part hpart
  rw [split, joined, String.toList_ofList, List.splitOn_intercalate sep hmap (by simpa using hne)]
  simp [Function.comp_def]

theorem joined_split (sep : Char) (s : String) : joined sep (split sep s) = s := by
  rw [joined, map_toList_split, List.intercalate_splitOn, String.ofList_toList]

theorem not_mem_of_mem_splitOn {sep : Char} {l part : List Char} (h : part ∈ l.splitOn sep) : sep ∉ part := by
  induction l generalizing part with
  | nil =>
    obtain rfl : part = [] := by simpa using h
    exact List.not_mem_nil
  | cons c l ih =>
    rw [List.splitOn_cons_eq_if_modifyHead] at h
    split_ifs at h with hc
    · rcases List.mem_cons.mp h with rfl | h
      · exact List.not_mem_nil
      · exact ih h
    · have hne := List.splitOn_ne_nil sep l
      generalize hl : l.splitOn sep = ls at h hne ih
      cases ls with
      | nil => exact absurd rfl hne
      | cons first rest =>
        rcases List.mem_cons.mp h with rfl | h
        · have hfirst : sep ∉ first := ih List.mem_cons_self
          have hsep : sep ≠ c := fun heq => hc (by simp [heq])
          exact fun hmem => hfirst (List.mem_of_ne_of_mem hsep hmem)
        · exact ih (List.mem_cons_of_mem _ h)

/-- what is put behind a list goes into its last part -/
theorem exists_splitOn_append (sep : Char) (l : List Char) : ∃ init last, l.splitOn sep = init ++ [last] ∧ last <:+ l ∧
    ∀ back, (l ++ back).splitOn sep = init ++ (back.splitOn sep).modifyHead (last ++ ·) := by
  -- a list of one part is that part
  suffices h : ∃ init last, l.splitOn sep = init ++ [last] ∧ (last <:+ l ∧ (init = [] → last = l)) ∧
      ∀ back, (l ++ back).splitOn sep = init ++ (back.splitOn sep).modifyHead (last ++ ·) by
    obtain ⟨init, last, hparts, ⟨hsuffix, _⟩, happend⟩ := h
    exact ⟨init, last, hparts, hsuffix, happend⟩
  induction l with
  | nil =>
    refine ⟨[], [], by simp, ⟨List.suffix_refl _, fun _ => rfl⟩, fun back => ?_⟩
    rw [List.nil_append]
    cases back.splitOn sep <;> rfl
  | cons c l ih =>
    obtain ⟨init, last, hparts, ⟨hsuffix, hsingle⟩, happend⟩ := ih
    by_cases hc : c == sep
    · refine ⟨[] :: init, last, ?_, ⟨hsuffix.trans (List.suffix_cons c l), fun h => absurd h (by simp)⟩, fun back => ?_⟩
      · rw [List.splitOn_cons_eq_if_modifyHead, if_pos hc, hparts, List.cons_append]
      · rw [List.cons_append, List.splitOn_cons_eq_if_modifyHead, if_pos hc, happend, List.cons_append]
    · cases init with
      | nil =>
        obtain rfl := hsingle rfl
        refine ⟨[], c :: last, ?_, ⟨List.suffix_refl _, fun _ => rfl⟩, fun back => ?_⟩
        · rw [List.splitOn_cons_eq_if_modifyHead, if_neg hc, hparts]
          rfl
        · rw [List.cons_append, List.splitOn_cons_eq_if_modifyHead, if_neg hc, happend]
          cases back.splitOn sep <;> rfl
      | cons first init =>
        refine ⟨(c :: first) :: init, last, ?_, ⟨hsuffix.trans (List.suffix_cons c l), fun h => absurd h (by simp)⟩,
          fun back => ?_⟩
        · rw [List.splitOn_cons_eq_if_modifyHead, if_neg hc, hparts]
          rfl
        · rw [List.cons_append, List.splitOn_cons_eq_if_modifyHead, if_neg hc, happend]
          rfl

theorem splitOn_eq_singleton {sep : Char} {l : List Char} (h : sep ∉ l) : l.splitOn sep = [l] := by
  have hone : ∀ part ∈ [l], sep ∉ part := by
    intro part hpart
    rw [List.mem_singleton.mp hpart]
    exact h
  simpa using List.splitOn_intercalate sep hone (List.cons_ne_nil l [])

/-- the first part goes on at least to the end of a front without the separator -/
theorem exists_split_front {sep : Char} {front back : List Char} (h : sep ∉ front) {s : String}
    (hs : s.toList = front ++ back) : ∃ cs others, split sep s = String.ofList (front ++ cs) :: others := by
  obtain ⟨init, last, hparts, _, happend⟩ := exists_splitOn_append sep front
  rw [splitOn_eq_singleton h] at hparts
  obtain ⟨rfl, rfl⟩ : init = [] ∧ last = front := by
    cases init with
    | nil => exact ⟨rfl, (List.cons.inj hparts).1.symm⟩
    | cons first init =>
      have hnil := (List.cons.inj hparts).2
      exact absurd hnil.symm (by simp)
  have hne := List.splitOn_ne_nil sep back
  unfold split
  rw [hs, happend]
  cases hback : back.splitOn sep with
  | nil => exact absurd hback hne
  | cons cs others => exact ⟨cs, others.map String.ofList, rfl⟩

theorem mem_of_mem_splitOn {sep c : Char} {l part : List Char} (h : part ∈ l.splitOn sep) (hc : c ∈ part) : c ∈ l := by
  induction l generalizing part with
  | nil =>
    obtain rfl : part = [] := by simpa using h
    exact absurd hc List.not_mem_nil
  | cons d l ih =>
    rw [List.splitOn_cons_eq_if_modifyHead] at h
    split_ifs at h with hd
    · rcases List.mem_cons.mp h with rfl | h
      · exact absurd hc List.not_mem_nil
      · exact List.mem_cons_of_mem d (ih h hc)
    · generalize hl : l.splitOn sep = ls at h ih
      cases ls with
      | nil => exact absurd hl (List.splitOn_ne_nil sep l)
      | cons first rest =>
        rcases List.mem_cons.mp h with rfl | h
        · rcases List.mem_cons.mp hc with rfl | hc
          · exact List.mem_cons_self
          · exact List.mem_cons_of_mem d (ih List.mem_cons_self hc)
        · exact List.mem_cons_of_mem d (ih (List.mem_cons_of_mem _ h) hc)

theorem not_mem_of_mem_split (h : part ∈ split sep s) : sep ∉ part.toList := by
  obtain ⟨l, hl, rfl⟩ := List.mem_map.mp h
  rw [String.toList_ofList]
  exact not_mem_of_mem_splitOn hl

/-- what a text splits into -/
theorem split_eq_iff (hne : parts ≠ []) :
    split sep s = parts ↔ s = joined sep parts ∧ ∀ part ∈ parts, sep ∉ part.toList := by
  constructor
  · rintro rfl
    exact ⟨(joined_split sep s).symm, fun part hpart => not_mem_of_mem_split hpart⟩
  · rintro ⟨rfl, h⟩
    exact split_joined hne h

end BigWorlds.Core
