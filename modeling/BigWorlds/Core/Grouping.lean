/-
Lists of operands in every order and grouping, combined by a partial operation.

- `Grouping.eval_iff`: where the operation is defined on what two groups stand for exactly under a condition on the two
  groups, a grouping has a result exactly if all its nodes meet the condition, and the result stands for the operands;
- `Grouping.leaves_extended`, `Grouping.each_of_extended`: a group as the first part of a grouping of a longer list.
-/
import Mathlib.Data.List.Basic
import Mathlib.Tactic.TypeStar

namespace BigWorlds.Core

/-- operands in an order and a grouping -/
inductive Grouping (α : Type*) where
  | leaf (a : α)
  | node (l r : Grouping α)

namespace Grouping

variable {α β : Type*}

def leaves : Grouping α → List α
  | leaf a => [a]
  | node l r => l.leaves ++ r.leaves

/-- the operands combined, none if the operation fails in a group -/
def eval (op : β → β → Option β) (val : α → β) : Grouping α → Option β
  | leaf a => some (val a)
  | node l r => do
    let x ← l.eval op val
    let y ← r.eval op val
    op x y

/-- the condition holds between the two groups of each node -/
def Each (P : Grouping α → Grouping α → Prop) : Grouping α → Prop
  | leaf _ => True
  | node l r => l.Each P ∧ r.Each P ∧ P l r

theorem leaves_ne_nil (t : Grouping α) : t.leaves ≠ [] := by
  induction t with
  | leaf a => exact List.cons_ne_nil _ _
  | node l r ihl _ =>
    intro h
    exact ihl (List.append_eq_nil_iff.mp h).1

theorem two_le_leaves (l r : Grouping α) : 2 ≤ (node l r).leaves.length := by
  have hl := List.length_pos_iff.mpr l.leaves_ne_nil
  have hr := List.length_pos_iff.mpr r.leaves_ne_nil
  rw [leaves, List.length_append]
  omega

section eval

variable {op : β → β → Option β} {val : α → β}

/-- what results stand for, kept by every node: the operation is defined exactly under the condition -/
structure Stands (op : β → β → Option β) (val : α → β) (R : α → α → Prop) (P : Grouping α → Grouping α → Prop)
    (Rep : List α → β → Prop) : Prop where
  leaf : ∀ a, Rep [a] (val a)
  defined : ∀ l r x y, (∀ a ∈ l.leaves, ∀ b ∈ r.leaves, R a b) → Rep l.leaves x → Rep r.leaves y → P l r →
    ∃ z, op x y = some z ∧ Rep (l.leaves ++ r.leaves) z
  failed : ∀ l r x y, Rep l.leaves x → Rep r.leaves y → ¬ P l r → op x y = none

variable {R : α → α → Prop} {P : Grouping α → Grouping α → Prop} {Rep : List α → β → Prop}

theorem Stands.of_eval (S : Stands op val R P Rep) {t : Grouping α} (h : t.leaves.Pairwise R) {z : β}
    (hz : t.eval op val = some z) : t.Each P ∧ Rep t.leaves z := by
  induction t generalizing z with
  | leaf a =>
    obtain rfl := Option.some.inj hz
    exact ⟨trivial, S.leaf a⟩
  | node l r ihl ihr =>
    obtain ⟨hl, hr, hlr⟩ := List.pairwise_append.mp h
    obtain ⟨x, hx, hz⟩ := Option.bind_eq_some_iff.mp hz
    obtain ⟨y, hy, hz⟩ := Option.bind_eq_some_iff.mp hz
    obtain ⟨hPl, hRl⟩ := ihl hl hx
    obtain ⟨hPr, hRr⟩ := ihr hr hy
    by_cases hP : P l r
    · obtain ⟨z', hz', hrep⟩ := S.defined l r x y hlr hRl hRr hP
      obtain rfl := Option.some.inj (hz'.symm.trans hz)
      exact ⟨⟨hPl, hPr, hP⟩, hrep⟩
    · exact absurd ((S.failed l r x y hRl hRr hP).symm.trans hz) (by simp)

theorem Stands.eval (S : Stands op val R P Rep) {t : Grouping α} (h : t.leaves.Pairwise R) (hP : t.Each P) :
    ∃ z, t.eval op val = some z ∧ Rep t.leaves z := by
  induction t with
  | leaf a => exact ⟨val a, rfl, S.leaf a⟩
  | node l r ihl ihr =>
    obtain ⟨hl, hr, hlr⟩ := List.pairwise_append.mp h
    obtain ⟨x, hx, hRl⟩ := ihl hl hP.1
    obtain ⟨y, hy, hRr⟩ := ihr hr hP.2.1
    obtain ⟨z, hz, hrep⟩ := S.defined l r x y hlr hRl hRr hP.2.2
    refine ⟨z, ?_, hrep⟩
    rw [Grouping.eval, hx, hy]
    exact hz

/-- a grouping has a result, which stands for the operands, exactly if all its nodes meet the condition -/
theorem eval_iff (S : Stands op val R P Rep) {t : Grouping α} (h : t.leaves.Pairwise R) :
    (∃ z, t.eval op val = some z ∧ Rep t.leaves z) ↔ t.Each P := by
  constructor
  · intro ⟨z, hz, _⟩
    exact (S.of_eval h hz).1
  · intro hP
    exact S.eval h hP

end eval

/-- the group first, then one operand after the other -/
def extended (t : Grouping α) (rest : List α) : Grouping α := rest.foldl (fun t a => node t (leaf a)) t

theorem leaves_extended (t : Grouping α) (rest : List α) : (t.extended rest).leaves = t.leaves ++ rest := by
  induction rest generalizing t with
  | nil => exact (List.append_nil _).symm
  | cons a rest ih =>
    calc (t.extended (a :: rest)).leaves
        = (node t (leaf a)).leaves ++ rest := ih (node t (leaf a))
      _ = t.leaves ++ a :: rest := by rw [leaves, leaves, List.append_assoc, List.singleton_append]

theorem each_of_extended {P : Grouping α → Grouping α → Prop} {t : Grouping α} {rest : List α}
    (h : (t.extended rest).Each P) : t.Each P := by
  induction rest generalizing t with
  | nil => exact h
  | cons a rest ih => exact (ih (t := node t (leaf a)) h).1

end Grouping

end BigWorlds.Core
