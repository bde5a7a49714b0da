/-
Strings of a limited size (`util.rs`, `string.rs`, each with the same `truncate_str`).

A string is its bytes in UTF-8. The cut is looked for from the size downwards, and the slice is taken without a check.

- `boundary_iff_splits`: a boundary is where a prefix of the string ends;
- `boundaryFrom_spec`: the search ends at the last boundary that is not behind where it starts;
- `truncateStr_longest`: the slice is in range, and it is the longest prefix of at most that many bytes.
-/
import Mathlib.Order.Nat

namespace BigWorlds

/-! ## Boundaries of characters -/

/-- `str::is_char_boundary`: the first byte of a character, or the end -/
def isCharBoundary (slice : String) (index : ℕ) : Bool :=
  index = slice.utf8ByteSize || (slice.toByteArray[index]?).any fun byte => byte.IsUTF8FirstByte

/-- `get_unchecked(..index)`; none is out of range -/
def getUnchecked (slice : String) (index : ℕ) : Option ByteArray :=
  if index ≤ slice.utf8ByteSize then some (slice.toByteArray.extract 0 index) else none

variable {slice : String} {index : ℕ}

theorem isCharBoundary_iff_isValid : isCharBoundary slice index = true ↔ (⟨index⟩ : String.Pos.Raw).IsValid slice := by
  rw [isCharBoundary, String.Pos.Raw.isValid_iff_isUTF8FirstByte, Bool.or_eq_true, decide_eq_true_eq,
    Option.any_eq_true]
  constructor
  · rintro (rfl | ⟨byte, hbyte, hfirst⟩)
    · exact Or.inl rfl
    · obtain ⟨hlt, rfl⟩ := getElem?_eq_some_iff.mp hbyte
      exact Or.inr ⟨hlt, of_decide_eq_true hfirst⟩
  · rintro (hend | ⟨hlt, hfirst⟩)
    · exact Or.inl (congrArg String.Pos.Raw.byteIdx hend)
    · exact Or.inr ⟨_, getElem?_eq_some_iff.mpr ⟨hlt, rfl⟩, decide_eq_true hfirst⟩

/-- a boundary is where a prefix of the string ends -/
theorem boundary_iff_splits : isCharBoundary slice index = true ↔
    ∃ front back : String, slice = front ++ back ∧ front.utf8ByteSize = index := by
  rw [isCharBoundary_iff_isValid, String.Pos.Raw.isValid_iff_exists_append]
  constructor
  · rintro ⟨front, back, hslice, hindex⟩
    exact ⟨front, back, hslice, (congrArg String.Pos.Raw.byteIdx hindex).symm⟩
  · rintro ⟨front, back, hslice, rfl⟩
    exact ⟨front, back, hslice, rfl⟩

theorem isCharBoundary_zero (slice : String) : isCharBoundary slice 0 = true :=
  boundary_iff_splits.2 ⟨"", slice, by simp, by simp⟩

/-! ## Truncation -/

/-- the loop of `truncate_str`; it ends since the start is a boundary -/
def boundaryFrom (slice : String) (index : ℕ) : ℕ :=
  if h : isCharBoundary slice index then index else boundaryFrom slice (index - 1)
termination_by index
decreasing_by
  have hne : index ≠ 0 := by
    rintro rfl
    exact h (isCharBoundary_zero slice)
  omega

/-- `truncate_str`; none takes a slice that is out of range -/
def truncateStr (slice : String) (size : UInt8) : Option ByteArray :=
  if isCharBoundary slice size.toNat then getUnchecked slice size.toNat
  else if size.toNat < slice.utf8ByteSize then getUnchecked slice (boundaryFrom slice (size.toNat - 1))
  else some slice.toByteArray

/-- the last boundary that is not behind the index -/
structure LastBoundary (slice : String) (index last : ℕ) : Prop where
  boundary : isCharBoundary slice last = true
  le : last ≤ index
  last : ∀ i ≤ index, isCharBoundary slice i = true → i ≤ last

theorem boundaryFrom_spec (slice : String) (index : ℕ) : LastBoundary slice index (boundaryFrom slice index) := by
  induction index with
  | zero =>
    rw [boundaryFrom, dif_pos (isCharBoundary_zero slice)]
    exact ⟨isCharBoundary_zero slice, le_rfl, fun i hi _ => hi⟩
  | succ index ih =>
    rw [boundaryFrom]
    split_ifs with h
    · exact ⟨h, le_rfl, fun i hi _ => hi⟩
    · refine ⟨ih.boundary, Nat.le_succ_of_le ih.le, ?_⟩
      intro i hi hboundary
      have hne : i ≠ index + 1 := by
        rintro rfl
        exact h hboundary
      exact ih.last i (by omega) hboundary

/-- the prefixes of a string with at most so many bytes -/
structure PrefixWithin (slice : String) (size : ℕ) (front : String) : Prop where
  isPrefix : ∃ back, slice = front ++ back
  le : front.utf8ByteSize ≤ size

/-- the longest of them -/
structure LongestPrefix (slice : String) (size : ℕ) (front : String) : Prop extends PrefixWithin slice size front where
  longest : ∀ other, PrefixWithin slice size other → other.utf8ByteSize ≤ front.utf8ByteSize

theorem getUnchecked_append (front back : String) :
    getUnchecked (front ++ back) front.utf8ByteSize = some front.toByteArray := by
  have hle : front.utf8ByteSize ≤ (front ++ back).utf8ByteSize := by simp
  rw [getUnchecked, if_pos hle]
  simp [ByteArray.extract_append_eq_left]

/-- the slice up to the last boundary that is not behind the size -/
theorem getUnchecked_longest {size last : ℕ} (h : LastBoundary slice size last) :
    ∃ front, getUnchecked slice last = some front.toByteArray ∧ LongestPrefix slice size front := by
  obtain ⟨front, back, rfl, rfl⟩ := boundary_iff_splits.1 h.boundary
  refine ⟨front, getUnchecked_append front back, ⟨⟨back, rfl⟩, h.le⟩, ?_⟩
  rintro other ⟨⟨rest, hrest⟩, hle⟩
  exact h.last _ hle (boundary_iff_splits.2 ⟨other, rest, hrest, rfl⟩)

/-- **Truncation.** The slice that is taken is in range, and it is the longest prefix of at most that many bytes. -/
theorem truncateStr_longest (slice : String) (size : UInt8) :
    ∃ front : String, truncateStr slice size = some front.toByteArray ∧ LongestPrefix slice size.toNat front := by
  unfold truncateStr
  split_ifs with hboundary hlt
  · exact getUnchecked_longest ⟨hboundary, le_rfl, fun i hi _ => hi⟩
  · -- the size itself is no boundary, so the search starts before it
    have hspec := boundaryFrom_spec slice (size.toNat - 1)
    refine getUnchecked_longest ⟨hspec.boundary, hspec.le.trans (Nat.sub_le _ _), ?_⟩
    intro i hi hi'
    have hne : i ≠ size.toNat := by
      rintro rfl
      exact hboundary hi'
    exact hspec.last i (by omega) hi'
  · refine ⟨slice, rfl, ⟨⟨"", by simp⟩, Nat.le_of_not_lt hlt⟩, ?_⟩
    rintro other ⟨⟨rest, rfl⟩, _⟩
    simp

end BigWorlds
