/-
Locks and who holds them. `busy` says of each lock whether it is taken, `holds` of each party which lock it holds.

- `Locked`: a lock is taken exactly while a party holds it, and one party only;
- `Locked.take`, `Locked.release`: kept where a party without a lock takes one that is free, and where it gives it back.
-/
import Mathlib.Logic.Function.Basic
import Mathlib.Tactic.SplitIfs

namespace BigWorlds.Core

variable {ι κ : Type*} {busy : κ → Bool} {holds : ι → Option κ}

structure Locked (busy : κ → Bool) (holds : ι → Option κ) : Prop where
  busy_iff : ∀ l, busy l = true ↔ ∃ i, holds i = some l
  unique : ∀ i j l, holds i = some l → holds j = some l → i = j

namespace Locked

theorem not_holds (h : Locked busy holds) {l : κ} (hl : busy l = false) (i : ι) : holds i ≠ some l := by
  intro hi
  have hbusy : busy l = true := (h.busy_iff l).mpr ⟨i, hi⟩
  rw [hl] at hbusy
  cases hbusy

variable [DecidableEq ι] [DecidableEq κ]

/-- a party that holds nothing takes a lock that is free -/
theorem take (h : Locked busy holds) {i : ι} {l : κ} (hi : holds i = none) (hl : busy l = false) :
    Locked (Function.update busy l true) (Function.update holds i (some l)) where
  busy_iff k := by
    by_cases hk : k = l
    · subst hk
      rw [Function.update_self]
      exact ⟨fun _ => ⟨i, Function.update_self ..⟩, fun _ => rfl⟩
    · rw [Function.update_of_ne hk, h.busy_iff]
      refine exists_congr fun j => ?_
      by_cases hj : j = i
      · subst hj
        rw [Function.update_self, hi, Option.some.injEq]
        exact ⟨fun hn => (Option.some_ne_none k hn.symm).elim, fun heq => absurd heq.symm hk⟩
      · rw [Function.update_of_ne hj]
  unique j j' k hj hj' := by
    rw [Function.update_apply] at hj hj'
    split_ifs at hj hj' with h1 h2 h2
    · rw [h1, h2]
    · exact absurd (Option.some.inj hj ▸ hj') (h.not_holds hl j')
    · exact absurd (Option.some.inj hj' ▸ hj) (h.not_holds hl j)
    · exact h.unique j j' k hj hj'

/-- a party gives back the lock it holds -/
theorem release (h : Locked busy holds) {i : ι} {l : κ} (hi : holds i = some l) :
    Locked (Function.update busy l false) (Function.update holds i none) where
  busy_iff k := by
    by_cases hk : k = l
    · subst hk
      rw [Function.update_self]
      refine ⟨fun hf => (Bool.false_ne_true hf).elim, ?_⟩
      rintro ⟨j, hj⟩
      rw [Function.update_apply] at hj
      split_ifs at hj with hji
      exact absurd (h.unique j i k hj hi) hji
    · rw [Function.update_of_ne hk, h.busy_iff]
      refine exists_congr fun j => ?_
      by_cases hj : j = i
      · subst hj
        rw [Function.update_self, hi, Option.some.injEq]
        exact ⟨fun heq => absurd heq.symm hk, fun hn => (Option.some_ne_none k hn.symm).elim⟩
      · rw [Function.update_of_ne hj]
  unique j j' k hj hj' := by
    rw [Function.update_apply] at hj hj'
    split_ifs at hj hj' with h1 h2
    exact h.unique j j' k hj hj'

end Locked

end BigWorlds.Core
