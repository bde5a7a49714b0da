/-
Watch channels and tables of tasks, the two data types of programs made of concurrent handlers.

- `Watch α`: one value and its version. A send overwrites the value; a receiver that marked version `seen` is woken by
  any later one and reads only the last value.
- Tasks are a list, addressed by position: a task that moves on is `List.set`. `countP_set_add` and `forall_mem_set`
  are what counting and invariants over such a table need.
-/
import Mathlib.Data.List.Basic

namespace BigWorlds.Core

structure Watch (α : Type*) where
  value : α
  version : ℕ
deriving DecidableEq, Repr

namespace Watch

variable {α : Type*}

/-- `watch::channel(value)` -/
def channel (value : α) : Watch α := ⟨value, 0⟩

def send (w : Watch α) (value : α) : Watch α := ⟨value, w.version + 1⟩

def modify (w : Watch α) (f : α → α) : Watch α := w.send (f w.value)

@[simp] theorem value_channel (v : α) : (channel v).value = v := rfl

@[simp] theorem version_channel (v : α) : (channel v).version = 0 := rfl

@[simp] theorem value_send (w : Watch α) (v : α) : (w.send v).value = v := rfl

@[simp] theorem version_send (w : Watch α) (v : α) : (w.send v).version = w.version + 1 := rfl

@[simp] theorem value_modify (w : Watch α) (f : α → α) : (w.modify f).value = f w.value := rfl

@[simp] theorem version_modify (w : Watch α) (f : α → α) : (w.modify f).version = w.version + 1 := rfl

end Watch

/-! ## Tables of tasks -/

variable {α : Type*}

theorem countP_set_add {p : α → Bool} {l : List α} {k : ℕ} {a : α} (b : α) (h : l[k]? = some a) :
    (l.set k b).countP p + (if p a then 1 else 0) = l.countP p + if p b then 1 else 0 := by
  obtain ⟨hk, rfl⟩ := List.getElem?_eq_some_iff.mp h
  have hle : (if p l[k] then 1 else 0) ≤ l.countP p := by
    split_ifs with hp
    · exact List.countP_pos_iff.mpr ⟨_, List.getElem_mem hk, hp⟩
    · exact Nat.zero_le _
  rw [List.countP_set hk]
  omega

/-- a task that moves on without changing what is counted -/
theorem countP_set_same {p : α → Bool} {l : List α} {k : ℕ} {a b : α} (h : l[k]? = some a) (hp : p b = p a) :
    (l.set k b).countP p = l.countP p := by
  have hadd := countP_set_add (p := p) b h
  rw [hp] at hadd
  omega

/-- what holds of every task goes on holding when the task that moves on meets it -/
theorem forall_mem_set {P : α → Prop} {l : List α} {k : ℕ} {b : α} (h : ∀ t ∈ l, P t) (hb : P b) :
    ∀ t ∈ l.set k b, P t := by
  intro t ht
  rcases List.mem_or_eq_of_mem_set ht with ht | rfl
  · exact h t ht
  · exact hb

end BigWorlds.Core
