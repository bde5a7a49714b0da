/-
A bounded channel with many listeners, each of which hears what is sent from when it subscribed. The channel keeps the
last `capacity` messages. A listener that is further behind than that loses what is not kept any more: its next receive
fails and takes it to the oldest message kept. Nothing here is about particular messages.

- `Hears`: what a listener has heard is in the order in which it was sent, and all but what it lost;
- `Hears.receive`, `Hears.send`: kept by receiving and by sending;
- `lost_receive`: nothing is lost by a listener that is at most `capacity` messages behind.
-/
import Mathlib.Data.List.Basic
import Mathlib.Tactic.SplitIfs

namespace BigWorlds.Core

variable {α : Type*}

structure Listener (α : Type*) where
  /-- the place in what is sent where it subscribed, and the place that it receives next -/
  start : ℕ
  next : ℕ
  heard : List α
  lost : ℕ
deriving DecidableEq, Repr

namespace Listener

def subscribe (sent : List α) : Listener α := ⟨sent.length, sent.length, [], 0⟩

/-- one receive; without a message to receive it waits -/
def receive (capacity : ℕ) (sent : List α) (l : Listener α) : Listener α :=
  match sent[l.next]? with
  | none => l
  | some a =>
    if l.next + capacity < sent.length then
      { l with next := sent.length - capacity, lost := l.lost + (sent.length - capacity - l.next) }
    else { l with next := l.next + 1, heard := l.heard ++ [a] }

/-- at most so many messages behind -/
def Within (capacity : ℕ) (sent : List α) (l : Listener α) : Prop := sent.length ≤ l.next + capacity

structure Hears (sent : List α) (l : Listener α) : Prop where
  start : l.start ≤ l.next
  next : l.next ≤ sent.length
  order : l.heard.Sublist ((sent.take l.next).drop l.start)
  all : l.heard.length + l.lost = l.next - l.start

variable {capacity : ℕ} {sent : List α} {l : Listener α}

theorem hears_subscribe (sent : List α) : Hears sent (subscribe sent) where
  start := Nat.le_refl _
  next := Nat.le_refl _
  order := List.nil_sublist _
  all := (Nat.sub_self _).symm

theorem Hears.send (h : Hears sent l) (message : α) : Hears (sent ++ [message]) l where
  start := h.start
  next := by
    rw [List.length_append]
    exact Nat.le_add_right_of_le h.next
  order := by
    rw [List.take_append_of_le_length h.next]
    exact h.order
  all := h.all

theorem Hears.receive (h : Hears sent l) (capacity : ℕ) : Hears sent (l.receive capacity sent) := by
  unfold Listener.receive
  cases hnext : sent[l.next]? with
  | none => exact h
  | some a =>
    obtain ⟨hlt, ha⟩ := List.getElem?_eq_some_iff.mp hnext
    have hstart := h.start
    have hall := h.all
    dsimp only
    split_ifs with hlag
    · -- the messages in between are lost
      refine ⟨by dsimp only; omega, by dsimp only; omega, ?_, by dsimp only; omega⟩
      have hsplit : sent.take (sent.length - capacity) =
          sent.take l.next ++ (sent.drop l.next).take (sent.length - capacity - l.next) := by
        rw [← List.take_add]
        congr 1
        omega
      show l.heard.Sublist ((sent.take (sent.length - capacity)).drop l.start)
      rw [hsplit, List.drop_append_of_le_length (by rw [List.length_take]; omega)]
      exact h.order.trans (List.sublist_append_left _ _)
    · refine ⟨by dsimp only; omega, by dsimp only; omega, ?_, ?_⟩
      · show (l.heard ++ [a]).Sublist ((sent.take (l.next + 1)).drop l.start)
        rw [List.take_add_one, hnext, Option.toList_some,
          List.drop_append_of_le_length (by rw [List.length_take]; omega)]
        exact h.order.append (List.Sublist.refl _)
      · dsimp only
        rw [List.length_append, List.length_singleton]
        omega

theorem lost_receive (h : l.Within capacity sent) : (l.receive capacity sent).lost = l.lost := by
  unfold Listener.receive
  cases sent[l.next]? with
  | none => rfl
  | some a =>
    dsimp only
    rw [if_neg (Nat.not_lt.mpr h)]

theorem Within.receive (h : l.Within capacity sent) : (l.receive capacity sent).Within capacity sent := by
  unfold Listener.receive
  cases sent[l.next]? with
  | none => exact h
  | some a =>
    dsimp only
    rw [if_neg (Nat.not_lt.mpr h)]
    exact Nat.le_trans h (by dsimp only; omega)

/-- a listener that has lost nothing has heard everything up to where it is -/
theorem Hears.heard_eq (h : Hears sent l) (hlost : l.lost = 0) : l.heard = (sent.take l.next).drop l.start := by
  refine h.order.eq_of_length ?_
  have hall := h.all
  have hnext := h.next
  rw [List.length_drop, List.length_take]
  omega

end Listener

end BigWorlds.Core
