/-
Loops that a turn ends, with a result or with an error, or does not. Nothing here is about a particular loop.

- `loop_mono`: a loop that has ended stays as it is in more turns;
- `loop_ends`: a loop ends if every turn that does not end it makes a measure smaller;
- `loop_ok_iff`: what is the same before and after a turn is whether the loop ends without an error;
- `loop_map`: a loop whose turns are the images of another one's;
- `endsWith_error`, `endsWith_last`, `endsWith_next`: what a loop ends with, turn by turn;
- `EndsWith.keeps`: what every turn keeps is so before the last one;
- `loop_congr_table`: a loop that ends looks at finitely many entries of a table.
-/
import Mathlib.Data.Nat.Init

namespace BigWorlds.Core

variable {σ ε α : Type*}

/-- a loop in at most so many turns, none if it goes on; a turn gives the next state or the result -/
def loop (turn : σ → Except ε (σ ⊕ α)) : (turns : ℕ) → σ → Option (Except ε α)
  | 0, _ => none
  | turns + 1, s =>
    match turn s with
    | .error e => some (.error e)
    | .ok (.inr a) => some (.ok a)
    | .ok (.inl s') => loop turn turns s'

variable {turn : σ → Except ε (σ ⊕ α)} {s : σ} {turns turns' : ℕ} {r : Except ε α}

theorem loop_zero : loop turn 0 s = none := rfl

theorem loop_succ : loop turn (turns + 1) s =
    match turn s with
    | .error e => some (.error e)
    | .ok (.inr a) => some (.ok a)
    | .ok (.inl s') => loop turn turns s' := rfl

theorem loop_mono (h : loop turn turns s = some r) (hle : turns ≤ turns') : loop turn turns' s = some r := by
  induction turns generalizing s turns' with
  | zero => exact absurd h (by simp [loop_zero])
  | succ turns ih =>
    obtain ⟨k, rfl⟩ := Nat.exists_eq_add_of_le hle
    rw [show turns + 1 + k = (turns + k) + 1 by omega]
    rw [loop_succ] at h ⊢
    cases ht : turn s with
    | error e =>
      rw [ht] at h
      exact h
    | ok next =>
      rw [ht] at h
      cases next with
      | inl s' => exact ih h (Nat.le_add_right turns k)
      | inr a => exact h

/-- **Termination.** With a measure that every turn makes smaller, the loop ends in one turn more than the measure. -/
theorem loop_ends {size : σ → ℕ} (hturn : ∀ s s', turn s = .ok (.inl s') → size s' < size s) (h : size s < turns) :
    ∃ r, loop turn turns s = some r := by
  induction turns generalizing s with
  | zero => exact absurd h (Nat.not_lt_zero _)
  | succ turns ih =>
    rw [loop_succ]
    cases ht : turn s with
    | error e => exact ⟨.error e, rfl⟩
    | ok next =>
      cases next with
      | inl s' =>
        have hsmaller := hturn s s' ht
        exact ih (by omega)
      | inr a => exact ⟨.ok a, rfl⟩

/-- **Partial correctness.** What a turn does not change, and what decides on a turn that is the last, decides on the
loop. -/
theorem loop_ok_iff {Good : σ → Prop} (herror : ∀ s e, turn s = .error e → ¬ Good s)
    (hend : ∀ s a, turn s = .ok (.inr a) → Good s) (hnext : ∀ s s', turn s = .ok (.inl s') → (Good s ↔ Good s'))
    (h : loop turn turns s = some r) : (∃ a, r = .ok a) ↔ Good s := by
  induction turns generalizing s with
  | zero => exact absurd h (by simp [loop_zero])
  | succ turns ih =>
    rw [loop_succ] at h
    cases ht : turn s with
    | error e =>
      rw [ht] at h
      obtain rfl := Option.some.inj h
      exact ⟨fun ⟨_, h⟩ => absurd h (by simp), fun hs => absurd hs (herror s e ht)⟩
    | ok next =>
      rw [ht] at h
      cases next with
      | inl s' => exact (ih h).trans (hnext s s' ht).symm
      | inr a =>
        obtain rfl := Option.some.inj h
        exact ⟨fun _ => hend s a ht, fun _ => ⟨a, rfl⟩⟩

/-- a loop over the images of states -/
theorem loop_map {σ' β : Type*} {turn' : σ' → Except ε (σ' ⊕ β)} {g : σ → σ'} {f : α → β}
    (h : ∀ s, turn' (g s) = (turn s).map (Sum.map g f)) (turns : ℕ) (s : σ) :
    loop turn' turns (g s) = (loop turn turns s).map (Except.map f) := by
  induction turns generalizing s with
  | zero => rfl
  | succ turns ih =>
    rw [loop_succ, loop_succ, h]
    cases turn s with
    | error e => rfl
    | ok next =>
      cases next with
      | inl s' => exact ih s'
      | inr a => rfl

/-! ## What a loop ends with -/

/-- the loop ends, and what it ends with is so -/
def EndsWith (turn : σ → Except ε (σ ⊕ α)) (s : σ) (Q : Except ε α → Prop) : Prop :=
  ∃ turns r, loop turn turns s = some r ∧ Q r

section
variable {Q Q' : Except ε α → Prop} {s' : σ} {a : α} {e : ε}

theorem EndsWith.mono (h : EndsWith turn s Q) (hQ : ∀ r, Q r → Q' r) : EndsWith turn s Q' := by
  obtain ⟨turns, r, hloop, hr⟩ := h
  exact ⟨turns, r, hloop, hQ r hr⟩

/-- a loop ends in one way only -/
theorem endsWith_of_loop (h : loop turn turns s = some r) : EndsWith turn s Q ↔ Q r := by
  constructor
  · intro ⟨turns', r', hloop, hr⟩
    have hmore := loop_mono h (Nat.le_add_right turns turns')
    have hmore' := loop_mono hloop (Nat.le_add_left turns' turns)
    obtain rfl := Option.some.inj (hmore.symm.trans hmore')
    exact hr
  · intro hr
    exact ⟨turns, r, h, hr⟩

theorem endsWith_error (h : turn s = .error e) : EndsWith turn s Q ↔ Q (.error e) := by
  have hloop : loop turn 1 s = some (.error e) := by rw [loop_succ, h]
  exact endsWith_of_loop hloop

theorem endsWith_last (h : turn s = .ok (.inr a)) : EndsWith turn s Q ↔ Q (.ok a) := by
  have hloop : loop turn 1 s = some (.ok a) := by rw [loop_succ, h]
  exact endsWith_of_loop hloop

theorem endsWith_next (h : turn s = .ok (.inl s')) : EndsWith turn s Q ↔ EndsWith turn s' Q := by
  have hloop : ∀ turns, loop turn (turns + 1) s = loop turn turns s' := by
    intro turns
    rw [loop_succ, h]
  constructor
  · intro ⟨turns, r, hr, hQ⟩
    cases turns with
    | zero => exact absurd hr (by simp [loop_zero])
    | succ turns => exact ⟨turns, r, hloop turns ▸ hr, hQ⟩
  · intro ⟨turns, r, hr, hQ⟩
    exact ⟨turns + 1, r, (hloop turns).trans hr, hQ⟩

/-- what every turn keeps is so before the last one -/
theorem EndsWith.keeps {I : σ → Prop} (hnext : ∀ s s', I s → turn s = .ok (.inl s') → I s') (hs : I s)
    (h : EndsWith turn s Q) : EndsWith turn s fun r => Q r ∧ ∃ last, I last ∧ turn last = r.map .inr := by
  obtain ⟨turns, r, hloop, hr⟩ := h
  induction turns generalizing s with
  | zero => exact absurd hloop (by simp [loop_zero])
  | succ turns ih =>
    cases ht : turn s with
    | error e =>
      have hend : r = .error e := by simpa [loop_succ, ht] using hloop.symm
      rw [endsWith_error ht, ← hend]
      refine ⟨hr, s, hs, ?_⟩
      rw [hend]
      exact ht
    | ok next =>
      rw [loop_succ, ht] at hloop
      cases next with
      | inl s' =>
        rw [endsWith_next ht]
        exact ih (hnext s s' hs ht) hloop
      | inr a =>
        obtain rfl := Option.some.inj hloop
        rw [endsWith_last ht]
        exact ⟨hr, s, hs, ht⟩

/-- a loop whose turns look at one entry of a table each looks at finitely many -/
theorem loop_congr_table {κ ν : Type*} {turn : (κ → ν) → σ → Except ε (σ ⊕ α)}
    (h : ∀ s, ∃ key, ∀ table table', table' key = table key → turn table' s = turn table s) (table : κ → ν)
    (turns : ℕ) (s : σ) :
    ∃ keys : List κ, ∀ table' : κ → ν, (∀ key ∈ keys, table' key = table key) →
      loop (turn table') turns s = loop (turn table) turns s := by
  induction turns generalizing s with
  | zero => exact ⟨[], fun _ _ => rfl⟩
  | succ turns ih =>
    obtain ⟨key, hkey⟩ := h s
    cases ht : turn table s with
    | error e =>
      refine ⟨[key], ?_⟩
      intro table' hsame
      rw [loop_succ, loop_succ, hkey table table' (hsame key List.mem_cons_self), ht]
    | ok next =>
      cases next with
      | inl s' =>
        obtain ⟨keys, hkeys⟩ := ih s'
        refine ⟨key :: keys, ?_⟩
        intro table' hsame
        rw [loop_succ, loop_succ, hkey table table' (hsame key List.mem_cons_self), ht]
        exact hkeys table' fun key' hmem => hsame key' (List.mem_cons_of_mem key hmem)
      | inr a =>
        refine ⟨[key], ?_⟩
        intro table' hsame
        rw [loop_succ, loop_succ, hkey table table' (hsame key List.mem_cons_self), ht]

end

end BigWorlds.Core
