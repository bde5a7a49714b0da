/-
Properly nested blocks over numbered lines. Nothing here is about a particular language: `mark` says of each line
whether it opens a block, divides one (an else), closes one or does none of these.

- `Nest`: the lines from `a` to `b` are a sequence of whole blocks, or the rest of a block that line `b` closes;
- `depth`: opened minus closed blocks over a range of lines. Inside a nest it is never negative and ends at zero;
- `Nest.end_unique`, `Nest.middles_unique`: a block's end and its dividing lines are determined by the marks;
- `Nest.block_inside`: a block that opens inside a nest closes inside it;
- `firstClose`: the counting scan for the line that closes the block one is in, and `firstClose_eq_some_iff`: the line
  where the depth seen first goes below zero;
- `OwnMiddles`: the dividing lines up to there that stand in no forking block, line by line and block by block.
-/
import Mathlib.Algebra.BigOperators.Intervals

namespace BigWorlds.Core

inductive Mark where
  | plain
  | opens (forks : Bool)
  | middle
  | closes
deriving DecidableEq, Repr

namespace Mark

def weight : Mark → ℤ
  | .opens _ => 1
  | .closes => -1
  | .plain | .middle => 0

@[simp] theorem weight_plain : Mark.plain.weight = 0 := rfl
@[simp] theorem weight_opens (f : Bool) : (Mark.opens f).weight = 1 := rfl
@[simp] theorem weight_middle : Mark.middle.weight = 0 := rfl
@[simp] theorem weight_closes : Mark.closes.weight = -1 := rfl

theorem weight_neg {m : Mark} (h : m.weight < 0) : m = .closes := by
  cases m with
  | closes => rfl
  | plain | middle | opens => simp [weight] at h

theorem neg_one_le_weight (m : Mark) : -1 ≤ m.weight := by
  cases m <;> simp [weight]

end Mark

variable {mark : ℕ → Mark} {a b m : ℕ}

/-! ## Depth -/

/-- opened minus closed blocks over the lines from `a` up to, and without, `b` -/
def depth (mark : ℕ → Mark) (a b : ℕ) : ℤ := ∑ k ∈ Finset.Ico a b, (mark k).weight

@[simp] theorem depth_self (mark : ℕ → Mark) (a : ℕ) : depth mark a a = 0 := by simp [depth]

theorem depth_succ (h : a ≤ b) : depth mark a (b + 1) = depth mark a b + (mark b).weight :=
  Finset.sum_Ico_succ_top h _

theorem depth_add (h₁ : a ≤ m) (h₂ : m ≤ b) : depth mark a m + depth mark m b = depth mark a b :=
  Finset.sum_Ico_consecutive _ h₁ h₂

theorem depth_cons (h : a < b) : depth mark a b = (mark a).weight + depth mark (a + 1) b :=
  Finset.sum_eq_sum_Ico_succ_bot h _

/-! ## Nested lines -/

/-- a sequence of whole blocks, or the inside of a block: one that may be divided (`arms true`) or not -/
inductive Part where
  | seq
  | arms (forks : Bool)

/-- the lines from `a` to `b`: of a sequence all lines before `b`, of the inside of a block the lines up to the closing
line `b`, with the lines `ms` that divide it -/
inductive Nest (mark : ℕ → Mark) : Part → ℕ → List ℕ → ℕ → Prop
  | nil (a : ℕ) : Nest mark .seq a [] a
  | plain {a b : ℕ} : mark a = .plain → Nest mark .seq (a + 1) [] b → Nest mark .seq a [] b
  | block {f : Bool} {a e b : ℕ} {ms : List ℕ} : mark a = .opens f → Nest mark (.arms f) (a + 1) ms e →
      Nest mark .seq (e + 1) [] b → Nest mark .seq a [] b
  | close {a e : ℕ} (f : Bool) : Nest mark .seq a [] e → mark e = .closes → Nest mark (.arms f) a [] e
  | middle {a m e : ℕ} {ms : List ℕ} : Nest mark .seq a [] m → mark m = .middle → Nest mark (.arms true) (m + 1) ms e →
      Nest mark (.arms true) a (m :: ms) e

/-- line `s` opens a block, `ms` are the lines that divide it and `e` closes it -/
def Block (mark : ℕ → Mark) (s : ℕ) (ms : List ℕ) (e : ℕ) : Prop :=
  ∃ f, mark s = .opens f ∧ Nest mark (.arms f) (s + 1) ms e

namespace Nest

variable {p : Part} {ms : List ℕ}

theorem le (h : Nest mark p a ms b) : a ≤ b := by
  induction h with
  | nil => exact le_refl _
  | plain _ _ ih => omega
  | block _ _ _ ih₁ ih₂ => omega
  | close _ _ _ ih => exact ih
  | middle _ _ _ ih₁ ih₂ => omega

theorem closes_end (h : Nest mark p a ms b) (hp : p ≠ .seq) : mark b = .closes := by
  induction h with
  | nil | plain | block => exact absurd rfl hp
  | close _ _ hc => exact hc
  | middle _ _ _ _ ih => exact ih (by simp)

/-- **Depth.** Inside a nest no line closes more than was opened, and at its end as much is closed as was opened. -/
theorem depth_balanced (h : Nest mark p a ms b) :
    depth mark a b = 0 ∧ ∀ m, a ≤ m → m ≤ b → 0 ≤ depth mark a m := by
  induction h with
  | nil a =>
    refine ⟨depth_self mark a, fun m h₁ h₂ => ?_⟩
    obtain rfl : m = a := by omega
    simp
  | @plain a b hm hn ih =>
    have hcons : ∀ m, a < m → depth mark a m = depth mark (a + 1) m := fun m hm' => by
      rw [depth_cons hm', hm, Mark.weight_plain, zero_add]
    refine ⟨(hcons b hn.le).trans ih.1, fun m h₁ h₂ => ?_⟩
    rcases Nat.eq_or_lt_of_le h₁ with rfl | h
    · simp
    · exact (hcons m h).symm ▸ ih.2 m h h₂
  | @block f a e b ms hm hn₁ hn₂ ih₁ ih₂ =>
    have hin : ∀ m, a < m → depth mark a m = 1 + depth mark (a + 1) m := fun m hm' => by
      rw [depth_cons hm', hm, Mark.weight_opens]
    have hae := hn₁.le
    have hend : depth mark a (e + 1) = 0 := by
      rw [depth_succ (by omega), hin e hae, ih₁.1, hn₁.closes_end (by simp)]
      rfl
    have hafter : ∀ m, e + 1 ≤ m → depth mark a m = depth mark (e + 1) m := fun m hm' => by
      rw [← depth_add (show a ≤ e + 1 by omega) hm', hend, zero_add]
    refine ⟨(hafter b hn₂.le).trans ih₂.1, fun m h₁ h₂ => ?_⟩
    rcases Nat.eq_or_lt_of_le h₁ with rfl | h
    · simp
    · rcases Nat.lt_or_ge e m with he | he
      · exact (hafter m he).symm ▸ ih₂.2 m he h₂
      · have := ih₁.2 m h he
        rw [hin m h]
        omega
  | close _ _ _ ih => exact ih
  | @middle a m e ms hn₁ hm hn₂ ih₁ ih₂ =>
    have hmid : depth mark a (m + 1) = 0 := by
      rw [depth_succ hn₁.le, ih₁.1, hm, Mark.weight_middle, zero_add]
    have hafter : ∀ k, m + 1 ≤ k → depth mark a k = depth mark (m + 1) k := fun k hk => by
      rw [← depth_add (Nat.le_succ_of_le hn₁.le) hk, hmid, zero_add]
    refine ⟨(hafter e hn₂.le).trans ih₂.1, fun k h₁ h₂ => ?_⟩
    rcases Nat.lt_or_ge m k with hk | hk
    · exact (hafter k hk).symm ▸ ih₂.2 k hk h₂
    · exact ih₁.2 k h₁ hk

theorem depth_end (h : Nest mark p a ms b) : depth mark a b = 0 := h.depth_balanced.1

theorem depth_nonneg (h : Nest mark p a ms b) (h₁ : a ≤ m) (h₂ : m ≤ b) : 0 ≤ depth mark a m :=
  h.depth_balanced.2 m h₁ h₂

/-! ## A block is determined by the marks -/

variable {f : Bool} {e : ℕ}

/-- past the end of the inside of a block the depth is negative -/
theorem depth_past (h : Nest mark (.arms f) a ms e) : depth mark a (e + 1) = -1 := by
  rw [depth_succ h.le, h.depth_end, h.closes_end (by simp)]
  rfl

theorem end_unique {f' : Bool} {ms' : List ℕ} {e' : ℕ} (h : Nest mark (.arms f) a ms e)
    (h' : Nest mark (.arms f') a ms' e') : e = e' := by
  rcases Nat.lt_trichotomy e e' with hlt | heq | hlt
  · have := h'.depth_nonneg (Nat.le_succ_of_le h.le) hlt
    rw [h.depth_past] at this
    omega
  · exact heq
  · have := h.depth_nonneg (Nat.le_succ_of_le h'.le) hlt
    rw [h'.depth_past] at this
    omega

/-- the dividing lines are those marked so at depth zero -/
theorem mem_middles_iff (h : Nest mark p a ms b) :
    ∀ m, m ∈ ms ↔ a ≤ m ∧ m < b ∧ mark m = .middle ∧ depth mark a m = 0 := by
  induction h with
  | nil a => intro m; simp; omega
  | @plain a b hm hn ih =>
    intro m
    rw [ih m]
    constructor
    · rintro ⟨h₁, h₂, h₃, h₄⟩
      refine ⟨by omega, h₂, h₃, ?_⟩
      rw [depth_cons (by omega), hm, Mark.weight_plain, h₄, zero_add]
    · rintro ⟨h₁, h₂, h₃, h₄⟩
      have hne : a ≠ m := by
        rintro rfl
        simp [hm] at h₃
      have hlt : a < m := by omega
      rw [depth_cons hlt, hm, Mark.weight_plain, zero_add] at h₄
      exact ⟨hlt, h₂, h₃, h₄⟩
  | @block f a e b ms hm hn₁ hn₂ ih₁ ih₂ =>
    intro m
    have hae := hn₁.le
    have hend : depth mark a (e + 1) = 0 := by
      rw [depth_cons (by omega), hm, hn₁.depth_past]
      rfl
    rw [ih₂ m]
    constructor
    · rintro ⟨h₁, h₂, h₃, h₄⟩
      exact ⟨by omega, h₂, h₃, by rw [← depth_add (show a ≤ e + 1 by omega) h₁, hend, h₄, zero_add]⟩
    · rintro ⟨h₁, h₂, h₃, h₄⟩
      have hne : a ≠ m := by
        rintro rfl
        simp [hm] at h₃
      rcases Nat.lt_or_ge e m with he | he
      · rw [← depth_add (show a ≤ e + 1 by omega) he, hend, zero_add] at h₄
        exact ⟨he, h₂, h₃, h₄⟩
      · have := hn₁.depth_nonneg (show a + 1 ≤ m by omega) he
        rw [depth_cons (by omega), hm, Mark.weight_opens] at h₄
        omega
  | @close a e f hn hc ih =>
    intro m
    exact ih m
  | @middle a m e ms hn₁ hm hn₂ ih₁ ih₂ =>
    intro k
    have hme := hn₂.le
    have ham := hn₁.le
    have hmid : depth mark a (m + 1) = 0 := by
      rw [depth_succ ham, hn₁.depth_end, hm, Mark.weight_middle, zero_add]
    rw [List.mem_cons, ih₂ k]
    constructor
    · rintro (rfl | ⟨h₁, h₂, h₃, h₄⟩)
      · exact ⟨ham, by omega, hm, hn₁.depth_end⟩
      · exact ⟨by omega, h₂, h₃, by rw [← depth_add (Nat.le_succ_of_le ham) h₁, hmid, h₄, zero_add]⟩
    · rintro ⟨h₁, h₂, h₃, h₄⟩
      rcases Nat.lt_trichotomy k m with hk | hk | hk
      · exact absurd ((ih₁ k).mpr ⟨h₁, hk, h₃, h₄⟩) List.not_mem_nil
      · exact Or.inl hk
      · rw [← depth_add (Nat.le_succ_of_le ham) hk, hmid, zero_add] at h₄
        exact Or.inr ⟨hk, h₂, h₃, h₄⟩

theorem middles_sorted (h : Nest mark p a ms b) : ms.Pairwise (· < ·) := by
  induction h with
  | nil | plain | block | close => exact List.Pairwise.nil
  | middle _ _ hn₂ _ ih₂ =>
    refine List.pairwise_cons.mpr ⟨fun k hk => ?_, ih₂⟩
    exact ((hn₂.mem_middles_iff k).mp hk).1

theorem middles_unique {f' : Bool} {ms' : List ℕ} {e' : ℕ} (h : Nest mark (.arms f) a ms e)
    (h' : Nest mark (.arms f') a ms' e') : ms = ms' := by
  obtain rfl := h.end_unique h'
  have hmem : ∀ m, m ∈ ms ↔ m ∈ ms' := fun m => (h.mem_middles_iff m).trans (h'.mem_middles_iff m).symm
  have hnodup : ms.Nodup := h.middles_sorted.imp fun h => Nat.ne_of_lt h
  have hnodup' : ms'.Nodup := h'.middles_sorted.imp fun h => Nat.ne_of_lt h
  exact List.Perm.eq_of_pairwise' (h.middles_sorted.imp Nat.le_of_lt) (h'.middles_sorted.imp Nat.le_of_lt)
    ((List.perm_ext_iff_of_nodup hnodup hnodup').mpr hmem)

/-- **Blocks inside.** What opens inside a nest closes inside it. -/
theorem block_inside (h : Nest mark p a ms b) {s : ℕ} (h₁ : a ≤ s) (h₂ : s < b) (hs : mark s = .opens f) :
    ∃ ms' e, Nest mark (.arms f) (s + 1) ms' e ∧ e < b := by
  induction h with
  | nil a => omega
  | @plain a b hm hn ih =>
    have hne : a ≠ s := by
      rintro rfl
      simp [hm] at hs
    exact ih (by omega) h₂
  | @block f' a e b ms hm hn₁ hn₂ ih₁ ih₂ =>
    have hb := hn₂.le
    rcases Nat.eq_or_lt_of_le h₁ with rfl | hlt
    · obtain rfl : f' = f := by
        rw [hm] at hs
        exact Mark.opens.inj hs
      exact ⟨ms, e, hn₁, hb⟩
    · rcases Nat.lt_trichotomy s e with he | rfl | he
      · obtain ⟨ms', e', hn, he'⟩ := ih₁ hlt he
        exact ⟨ms', e', hn, by omega⟩
      · rw [hn₁.closes_end (by simp)] at hs
        exact absurd hs (by simp)
      · exact ih₂ he h₂
  | close f' hn hc ih => exact ih h₁ h₂
  | @middle a m e ms hn₁ hm hn₂ ih₁ ih₂ =>
    rcases Nat.lt_trichotomy s m with he | rfl | he
    · obtain ⟨ms', e', hn, he'⟩ := ih₁ h₁ he
      have := hn₂.le
      exact ⟨ms', e', hn, by omega⟩
    · rw [hm] at hs
      exact absurd hs (by simp)
    · exact ih₂ he h₂

end Nest

/-! ## The counting scan -/

/-- the first of the `k` lines from `a` that closes more than the `d` blocks already open and those opened since -/
def firstClose (mark : ℕ → Mark) : (k a d : ℕ) → Option ℕ
  | 0, _, _ => none
  | k + 1, a, d =>
    match mark a, d with
    | .opens _, d => firstClose mark k (a + 1) (d + 1)
    | .closes, 0 => some a
    | .closes, d + 1 => firstClose mark k (a + 1) d
    | .plain, d => firstClose mark k (a + 1) d
    | .middle, d => firstClose mark k (a + 1) d

/-- a line that does not close the last open block moves the scan on by its weight -/
theorem firstClose_succ (k : ℕ) {d : ℕ} (d' : ℕ) (hd : (d' : ℤ) = d + (mark a).weight) :
    firstClose mark (k + 1) a d = firstClose mark k (a + 1) d' := by
  cases hm : mark a with
  | opens f =>
    obtain rfl : d' = d + 1 := by rw [hm, Mark.weight_opens] at hd; omega
    simp [firstClose, hm]
  | closes =>
    obtain rfl : d = d' + 1 := by rw [hm, Mark.weight_closes] at hd; omega
    simp [firstClose, hm]
  | plain | middle =>
    obtain rfl : d' = d := by simp only [hm, Mark.weight_plain, Mark.weight_middle] at hd; omega
    simp [firstClose, hm]

theorem firstClose_closes (k : ℕ) (hm : mark a = .closes) : firstClose mark (k + 1) a 0 = some a := by
  simp [firstClose, hm]

/-- what a line does to a scan: it ends it, or the scan goes on with the depth it leaves -/
theorem firstClose_step (mark : ℕ → Mark) (k a d : ℕ) :
    (mark a = .closes ∧ d = 0 ∧ firstClose mark (k + 1) a d = some a) ∨
      ∃ d' : ℕ, (d' : ℤ) = d + (mark a).weight ∧ firstClose mark (k + 1) a d = firstClose mark k (a + 1) d' := by
  by_cases h : (d : ℤ) + (mark a).weight < 0
  · have := (mark a).neg_one_le_weight
    have hm : mark a = .closes := Mark.weight_neg (by omega)
    obtain rfl : d = 0 := by omega
    exact Or.inl ⟨hm, rfl, firstClose_closes k hm⟩
  · have hd : (((d : ℤ) + (mark a).weight).toNat : ℤ) = d + (mark a).weight := Int.toNat_of_nonneg (by omega)
    exact Or.inr ⟨_, hd, firstClose_succ k _ hd⟩

/-- **The scan.** It stops at the first line where more has been closed than was open. -/
theorem firstClose_eq_some_iff {k d r : ℕ} :
    firstClose mark k a d = some r ↔
      a ≤ r ∧ r < a + k ∧ depth mark a (r + 1) = -(d + 1) ∧ ∀ m, a ≤ m → m ≤ r → -(d : ℤ) ≤ depth mark a m := by
  induction k generalizing a d with
  | zero => simp [firstClose]; omega
  | succ k ih =>
    rcases firstClose_step mark k a d with ⟨hm, rfl, heq⟩ | ⟨d', hd, heq⟩
    · have hone : depth mark a (a + 1) = -1 := by
        rw [depth_succ le_rfl, hm, depth_self]
        rfl
      rw [heq, Option.some.injEq]
      constructor
      · rintro rfl
        refine ⟨le_rfl, by omega, hone, fun m h₁ h₂ => ?_⟩
        obtain rfl : m = a := by omega
        simp
      · rintro ⟨h₁, _, _, h₄⟩
        by_contra hne
        have := h₄ (a + 1) (by omega) (by omega)
        rw [hone] at this
        omega
    · have hcons : ∀ m, a < m → depth mark a m = d' - d + depth mark (a + 1) m := fun m hm => by
        rw [depth_cons hm, hd]
        omega
      rw [heq, ih]
      constructor
      · rintro ⟨h₁, h₂, h₃, h₄⟩
        refine ⟨by omega, by omega, by rw [hcons _ (by omega), h₃]; omega, fun m hm₁ hm₂ => ?_⟩
        rcases Nat.eq_or_lt_of_le hm₁ with rfl | hlt
        · simp
        · have := h₄ m hlt hm₂
          rw [hcons m hlt]
          omega
      · rintro ⟨h₁, h₂, h₃, h₄⟩
        have hne : a ≠ r := by
          rintro rfl
          rw [depth_succ le_rfl, depth_self] at h₃
          omega
        rw [hcons _ (by omega)] at h₃
        refine ⟨by omega, by omega, by omega, fun m hm₁ hm₂ => ?_⟩
        have := h₄ m (by omega) hm₂
        rw [hcons m hm₁] at this
        omega

/-- the scan fails where no line closes too much -/
theorem firstClose_eq_none_iff {k d : ℕ} :
    firstClose mark k a d = none ↔ ∀ m, a ≤ m → m ≤ a + k → -(d : ℤ) ≤ depth mark a m := by
  induction k generalizing a d with
  | zero =>
    refine ⟨fun _ m h₁ h₂ => ?_, fun _ => rfl⟩
    obtain rfl : m = a := by omega
    simp
  | succ k ih =>
    rcases firstClose_step mark k a d with ⟨hm, rfl, heq⟩ | ⟨d', hd, heq⟩
    · rw [heq]
      refine ⟨fun h => absurd h (by simp), fun h => ?_⟩
      have := h (a + 1) (by omega) (by omega)
      rw [depth_succ le_rfl, hm, depth_self, Mark.weight_closes] at this
      omega
    · have hcons : ∀ m, a < m → depth mark a m = d' - d + depth mark (a + 1) m := fun m hm => by
        rw [depth_cons hm, hd]
        omega
      rw [heq, ih]
      constructor
      · intro h m h₁ h₂
        rcases Nat.eq_or_lt_of_le h₁ with rfl | hlt
        · simp
        · have := h m hlt (by omega)
          rw [hcons m hlt]
          omega
      · intro h m h₁ h₂
        have := h m (by omega) (by omega)
        rw [hcons m h₁] at this
        omega

/-- a scan from depth `d + 1` is two scans, each for the end of one block less -/
theorem firstClose_split (mark : ℕ → Mark) (k a d : ℕ) :
    firstClose mark k a (d + 1) =
      (firstClose mark k a 0).bind fun r => firstClose mark (a + k - (r + 1)) (r + 1) d := by
  cases h₀ : firstClose mark k a 0 with
  | none =>
    rw [Option.bind_none, firstClose_eq_none_iff]
    intro m h₁ h₂
    have := firstClose_eq_none_iff.1 h₀ m h₁ h₂
    omega
  | some r =>
    obtain ⟨h₁, h₂, h₃, h₄⟩ := firstClose_eq_some_iff.1 h₀
    have hafter : ∀ m, r + 1 ≤ m → depth mark a m = -1 + depth mark (r + 1) m := fun m hm => by
      rw [← depth_add (show a ≤ r + 1 by omega) hm, h₃]
      simp
    ext r'
    rw [Option.bind_some, firstClose_eq_some_iff, firstClose_eq_some_iff]
    constructor
    · rintro ⟨g₁, g₂, g₃, g₄⟩
      have hlt : r < r' := by
        by_contra hle
        rcases Nat.eq_or_lt_of_le (Nat.le_of_not_lt hle) with rfl | hlt
        · rw [h₃] at g₃
          omega
        · have := h₄ (r' + 1) (by omega) hlt
          rw [g₃] at this
          omega
      rw [hafter _ (by omega)] at g₃
      refine ⟨hlt, by omega, by omega, fun m hm₁ hm₂ => ?_⟩
      have := g₄ m (by omega) hm₂
      rw [hafter m hm₁] at this
      omega
    · rintro ⟨g₁, g₂, g₃, g₄⟩
      refine ⟨by omega, by omega, by rw [hafter _ (by omega), g₃]; omega, fun m hm₁ hm₂ => ?_⟩
      rcases Nat.lt_or_ge r m with hm | hm
      · have := g₄ m hm hm₂
        rw [hafter m hm]
        omega
      · have := h₄ m hm₁ hm
        omega

/-! ## The end of the open block, and what stands in blocks inside it -/

/-- line `e` closes the block that is open at line `a` -/
structure Ends (mark : ℕ → Mark) (a e : ℕ) : Prop where
  le : a ≤ e
  past : depth mark a (e + 1) = -1
  within : ∀ m, a ≤ m → m ≤ e → 0 ≤ depth mark a m

theorem firstClose_zero_iff {k e : ℕ} : firstClose mark k a 0 = some e ↔ Ends mark a e ∧ e < a + k := by
  rw [firstClose_eq_some_iff]
  constructor
  · rintro ⟨h₁, h₂, h₃, h₄⟩
    exact ⟨⟨h₁, by simpa using h₃, by simpa using h₄⟩, h₂⟩
  · rintro ⟨⟨h₁, h₃, h₄⟩, h₂⟩
    exact ⟨h₁, h₂, by simpa using h₃, by simpa using h₄⟩

namespace Ends

variable {e : ℕ}

theorem closes (h : Ends mark a e) : mark e = .closes := by
  have hpast := h.past
  have hend := h.within e h.le le_rfl
  rw [depth_succ h.le] at hpast
  exact Mark.weight_neg (by omega)

theorem unique {e' : ℕ} (h : Ends mark a e) (h' : Ends mark a e') : e = e' := by
  have h₁ := firstClose_zero_iff.2 ⟨h, show e < a + (e + e' + 1) by omega⟩
  have h₂ := firstClose_zero_iff.2 ⟨h', show e' < a + (e + e' + 1) by omega⟩
  exact Option.some.inj (h₁.symm.trans h₂)

/-- a block that opens inside is closed inside -/
theorem exists_inner (h : Ends mark a e) {s : ℕ} {f : Bool} (h₁ : a ≤ s) (h₂ : s < e) (hs : mark s = .opens f) :
    ∃ e', Ends mark (s + 1) e' ∧ e' < e := by
  have hbefore := h.within s h₁ h₂.le
  have hsplit : ∀ m, s < m → depth mark a m = depth mark a s + 1 + depth mark (s + 1) m := fun m hm => by
    rw [← depth_add h₁ hm.le, depth_cons hm, hs, Mark.weight_opens, add_assoc]
  have hpast := h.past
  rw [hsplit (e + 1) (by omega)] at hpast
  cases hf : firstClose mark (e - s) (s + 1) 0 with
  | none =>
    have := firstClose_eq_none_iff.1 hf (e + 1) (by omega) (by omega)
    omega
  | some e' =>
    obtain ⟨hends, hlt⟩ := firstClose_zero_iff.1 hf
    refine ⟨e', hends, Nat.lt_of_le_of_ne (by omega) ?_⟩
    intro heq
    have := hends.past
    rw [heq] at this
    omega

end Ends

/-- line `m` stands in the block that line `s` opens -/
def Encloses (mark : ℕ → Mark) (s m : ℕ) : Prop := s < m ∧ ∀ e, Ends mark (s + 1) e → m < e

/-- line `m` stands in a forking block that opens at line `a` or after it -/
def InFork (mark : ℕ → Mark) (a m : ℕ) : Prop := ∃ s, a ≤ s ∧ mark s = .opens true ∧ Encloses mark s m

theorem inFork_succ_iff (h : mark a ≠ .opens true) : InFork mark a m ↔ InFork mark (a + 1) m := by
  constructor
  · rintro ⟨s, hs, hopens, henc⟩
    have hne : a ≠ s := by
      rintro rfl
      exact h hopens
    exact ⟨s, by omega, hopens, henc⟩
  · rintro ⟨s, hs, hopens, henc⟩
    exact ⟨s, by omega, hopens, henc⟩

theorem not_inFork (h : m ≤ a) : ¬ InFork mark a m := by
  rintro ⟨s, hs, _, hlt, _⟩
  omega

/-- past the end of a block nothing stands in it or in a block inside it -/
theorem inFork_past_iff {e : ℕ} (h : Ends mark (a + 1) e) (hm : e < m) :
    InFork mark a m ↔ InFork mark (e + 1) m := by
  have hle := h.le
  constructor
  · rintro ⟨s, hs, hopens, henc⟩
    refine ⟨s, ?_, hopens, henc⟩
    by_contra hlt
    have hcloses := h.closes
    obtain ⟨e', hends, he'⟩ : ∃ e', Ends mark (s + 1) e' ∧ e' ≤ e := by
      rcases Nat.eq_or_lt_of_le hs with rfl | hs
      · exact ⟨e, h, le_rfl⟩
      · have hne : s ≠ e := by
          rintro rfl
          rw [hcloses] at hopens
          exact absurd hopens (by simp)
        obtain ⟨e', hends, he'⟩ := h.exists_inner hs (by omega) hopens
        exact ⟨e', hends, he'.le⟩
    have := henc.2 e' hends
    omega
  · rintro ⟨s, hs, hopens, henc⟩
    exact ⟨s, by omega, hopens, henc⟩

/-- the dividing lines from `a` to `e`, without those in forking blocks -/
structure OwnMiddles (mark : ℕ → Mark) (a e : ℕ) (ms : List ℕ) : Prop where
  sorted : ms.Pairwise (· < ·)
  mem_iff : ∀ m, m ∈ ms ↔ a ≤ m ∧ m < e ∧ mark m = .middle ∧ ¬ InFork mark a m

namespace OwnMiddles

variable {e : ℕ} {ms : List ℕ}

theorem nil (mark : ℕ → Mark) (e : ℕ) : OwnMiddles mark e e [] :=
  ⟨List.Pairwise.nil, fun m => by simp; omega⟩

/-- a line that neither divides nor opens a forking block -/
theorem skip (h : OwnMiddles mark (a + 1) e ms) (hm : mark a ≠ .middle) (ho : mark a ≠ .opens true) :
    OwnMiddles mark a e ms := by
  refine ⟨h.sorted, fun m => ?_⟩
  rw [h.mem_iff, ← inFork_succ_iff ho]
  constructor
  · rintro ⟨h₁, h₂⟩
    exact ⟨by omega, h₂⟩
  · rintro ⟨h₁, h₂, hmid, hin⟩
    have hne : a ≠ m := by
      rintro rfl
      exact hm hmid
    exact ⟨by omega, h₂, hmid, hin⟩

theorem cons (h : OwnMiddles mark (a + 1) e ms) (hlt : a < e) (hm : mark a = .middle) :
    OwnMiddles mark a e (a :: ms) := by
  constructor
  · refine List.pairwise_cons.mpr ⟨fun m hmem => ?_, h.sorted⟩
    exact ((h.mem_iff m).mp hmem).1
  · intro m
    rw [List.mem_cons, h.mem_iff, ← inFork_succ_iff (show mark a ≠ .opens true by simp [hm])]
    constructor
    · rintro (rfl | ⟨h₁, h₂⟩)
      · exact ⟨le_rfl, hlt, hm, not_inFork le_rfl⟩
      · exact ⟨by omega, h₂⟩
    · rintro ⟨h₁, h₂⟩
      rcases Nat.eq_or_lt_of_le h₁ with rfl | hlt'
      · exact Or.inl rfl
      · exact Or.inr ⟨hlt', h₂⟩

/-- a forking block and what follows it -/
theorem past {e' : ℕ} (h : OwnMiddles mark (e' + 1) e ms) (hends : Ends mark (a + 1) e')
    (ho : mark a = .opens true) : OwnMiddles mark a e ms := by
  have hle := hends.le
  have hcloses := hends.closes
  refine ⟨h.sorted, fun m => ?_⟩
  rw [h.mem_iff]
  constructor
  · rintro ⟨h₁, h₂, hmid, hin⟩
    exact ⟨by omega, h₂, hmid, fun h => hin ((inFork_past_iff hends (by omega)).mp h)⟩
  · rintro ⟨h₁, h₂, hmid, hin⟩
    have hne : m ≠ a ∧ m ≠ e' := by
      constructor <;> rintro rfl <;> simp_all
    have hlt : e' < m := by
      by_contra hge
      -- then the line stands in the block itself
      refine hin ⟨a, le_rfl, ho, by omega, fun e'' hends'' => ?_⟩
      obtain rfl := hends.unique hends''
      omega
    exact ⟨hlt, h₂, hmid, fun h => hin ((inFork_past_iff hends hlt).mpr h)⟩

end OwnMiddles

end BigWorlds.Core
