/-
Computations that may fail, one after the other and over lists.

- `bind_eq_ok`: a sequence succeeds exactly if its parts do;
- `mapM_ok_iff`, `exists_mapM_ok_iff`: a list is worked off exactly if each element is;
- `forall₂_iff_forall`: from a relation between two lists to a property of the first.
-/
import Mathlib.Data.List.Forall2

namespace BigWorlds.Core

variable {ε α β : Type}

theorem bind_eq_ok {x : Except ε α} {f : α → Except ε β} {b : β} :
    (x >>= f) = .ok b ↔ ∃ a, x = .ok a ∧ f a = .ok b := by
  cases x with
  | error err => exact ⟨fun h => absurd h (by rintro ⟨⟩), fun ⟨_, h, _⟩ => absurd h (by rintro ⟨⟩)⟩
  | ok a => exact ⟨fun h => ⟨a, rfl, h⟩, fun ⟨_, h, h'⟩ => by cases h; exact h'⟩

/-- three steps, and what is made of them -/
theorem three_steps_eq_ok {γ δ : Type} {x : Except ε α} {y : α → Except ε β} {z : α → β → Except ε γ}
    {f : α → β → γ → δ} {d : δ} (h : (do let a ← x; let b ← y a; let c ← z a b; return f a b c) = .ok d) :
    ∃ a b c, x = .ok a ∧ d = f a b c := by
  obtain ⟨a, ha, h⟩ := bind_eq_ok.1 h
  obtain ⟨b, _, h⟩ := bind_eq_ok.1 h
  obtain ⟨c, _, h⟩ := bind_eq_ok.1 h
  exact ⟨a, b, c, ha, (Except.ok.inj h).symm⟩

theorem mapM_ok_iff {f : α → Except ε β} {l : List α} {l' : List β} :
    l.mapM f = .ok l' ↔ List.Forall₂ (fun a b => f a = .ok b) l l' := by
  induction l generalizing l' with
  | nil => simp [pure, Except.pure, eq_comm]
  | cons a l ih =>
    rw [List.mapM_cons]
    constructor
    · intro h
      obtain ⟨b, hb, h⟩ := bind_eq_ok.1 h
      obtain ⟨bs, hbs, h⟩ := bind_eq_ok.1 h
      obtain rfl := Except.ok.inj h
      exact .cons hb (ih.mp hbs)
    · intro h
      cases h with
      | cons hb hbs =>
        rw [hb, ih.mpr hbs]
        rfl

theorem exists_mapM_ok_iff {f : α → Except ε β} {l : List α} :
    (∃ l', l.mapM f = .ok l') ↔ ∀ a ∈ l, ∃ b, f a = .ok b := by
  simp only [mapM_ok_iff]
  induction l with
  | nil => simp
  | cons a l ih =>
    rw [List.forall_mem_cons, ← ih]
    constructor
    · rintro ⟨_, h⟩
      cases h with
      | cons hb hbs => exact ⟨⟨_, hb⟩, _, hbs⟩
    · rintro ⟨⟨b, hb⟩, bs, hbs⟩
      exact ⟨b :: bs, .cons hb hbs⟩

/-- where each related pair is good exactly if its first part is -/
theorem forall₂_iff_forall {R S : α → β → Prop} {P : α → Prop} (h : ∀ a b, R a b → (S a b ↔ P a))
    {l : List α} {l' : List β} (hl : List.Forall₂ R l l') : List.Forall₂ S l l' ↔ ∀ a ∈ l, P a := by
  induction hl with
  | nil => simp
  | cons hab _ ih => rw [List.forall₂_cons, List.forall_mem_cons, h _ _ hab, ih]

end BigWorlds.Core
