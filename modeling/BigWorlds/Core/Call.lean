/-
A call through an executor. A local executor runs the handler and brings its answer back, an error of the handler
wrapped by `wrap`. Over a remote executor the request or the answer may be lost: the caller sees an error in both cases
and cannot tell whether the handler ran.

`Rng` is a source of random choices from a finite set: it picks a member whenever there is one, and nothing else is
known about it.
-/
import Mathlib.Data.Finset.Max

namespace BigWorlds.Core

inductive Exec where
  | remote
  | «local»
deriving DecidableEq, Repr

/-- what becomes of one remote call -/
inductive Fate (ε : Type) where
  | delivered
  | requestLost (e : ε)
  | replyLost (e : ε)
deriving DecidableEq, Repr

variable {σ ε α : Type}

def Fate.LosesReply (fate : Fate ε) : Prop := ∃ e, fate = .replyLost e

def Exec.call (exec : Exec) (fate : Fate ε) (wrap : ε → ε) (handler : σ → σ × Except ε α) (s : σ) :
    σ × Except ε α :=
  match exec with
  | .local => ((handler s).1, (handler s).2.mapError wrap)
  | .remote =>
    match fate with
    | .delivered => handler s
    | .requestLost e => (s, .error e)
    | .replyLost e => ((handler s).1, .error e)

/-- **What a call can do.** Either a remote request is lost: nothing happens and the caller gets an error. Or the
handler runs on the state: the caller gets its success, an error for its error, or an error for a lost answer, which
takes a remote executor. -/
theorem Exec.call_cases (exec : Exec) (fate : Fate ε) (wrap : ε → ε) (handler : σ → σ × Except ε α) (s : σ) :
    (exec = .remote ∧ ∃ e, exec.call fate wrap handler s = (s, .error e)) ∨
      ((exec.call fate wrap handler s).1 = (handler s).1 ∧
        ((∃ e, (exec.call fate wrap handler s).2 = .error e ∧
            ((∃ e', (handler s).2 = .error e') ∨ (exec = .remote ∧ fate.LosesReply))) ∨
          ∃ a, (exec.call fate wrap handler s).2 = .ok a ∧ (handler s).2 = .ok a)) := by
  cases exec with
  | «local» =>
    refine .inr ⟨rfl, ?_⟩
    cases h : (handler s).2 with
    | error e => exact .inl ⟨wrap e, by simp [call, h, Except.mapError], .inl ⟨e, rfl⟩⟩
    | ok a => exact .inr ⟨a, by simp [call, h, Except.mapError], rfl⟩
  | remote =>
    cases fate with
    | delivered =>
      refine .inr ⟨rfl, ?_⟩
      cases h : (handler s).2 with
      | error e => exact .inl ⟨e, h, .inl ⟨e, rfl⟩⟩
      | ok a => exact .inr ⟨a, h, rfl⟩
    | requestLost e => exact .inl ⟨rfl, e, rfl⟩
    | replyLost e => exact .inr ⟨rfl, .inl ⟨e, rfl, .inr ⟨rfl, e, rfl⟩⟩⟩

/-- the request is not lost on the way -/
def Exec.Arrives (exec : Exec) (fate : Fate ε) : Prop := exec = .remote → ∀ e, fate ≠ .requestLost e

/-- the answer is not lost on the way -/
def Exec.Answered (exec : Exec) (fate : Fate ε) : Prop := exec = .remote → ¬ fate.LosesReply

/-- a request that arrives runs the handler; the caller gets its success exactly when the answer is not lost -/
theorem Exec.call_arrived {exec : Exec} {fate : Fate ε} (h : exec.Arrives fate) (wrap : ε → ε)
    (handler : σ → σ × Except ε α) (s : σ) :
    (exec.call fate wrap handler s).1 = (handler s).1 ∧
      ∀ a, (exec.call fate wrap handler s).2 = .ok a ↔ exec.Answered fate ∧ (handler s).2 = .ok a := by
  cases exec with
  | «local» =>
    refine ⟨rfl, fun a => ?_⟩
    cases hr : (handler s).2 <;> simp [call, hr, Except.mapError, Answered]
  | remote =>
    cases fate with
    | delivered => exact ⟨rfl, fun a => by simp [call, Answered, Fate.LosesReply]⟩
    | requestLost e => exact absurd rfl (h rfl e)
    | replyLost e => exact ⟨rfl, fun a => by simp [call, Answered, Fate.LosesReply]⟩

/-- a request that is lost does nothing and is an error for the caller -/
theorem Exec.call_lost {exec : Exec} {fate : Fate ε} (h : ¬ exec.Arrives fate) (wrap : ε → ε)
    (handler : σ → σ × Except ε α) (s : σ) : ∃ e, exec.call fate wrap handler s = (s, .error e) := by
  unfold Arrives at h
  push Not at h
  obtain ⟨rfl, e, rfl⟩ := h
  exact ⟨e, rfl⟩

/-- a random choice from finite sets: a member of the set, and nothing only from the empty set -/
structure Rng (α : Type) [DecidableEq α] where
  choose : Finset α → Option α
  choose_mem : ∀ {s a}, choose s = some a → a ∈ s
  choose_none : ∀ {s}, choose s = none → s = ∅

/-- the choice that falls on `a` where it can, and on the least member elsewhere -/
def Rng.prefer [LinearOrder α] (a : α) : Rng α where
  choose s := if a ∈ s then some a else if h : s.Nonempty then some (s.min' h) else none
  choose_mem {s b} h := by
    split_ifs at h with ha hs
    · exact Option.some.inj h ▸ ha
    · exact Option.some.inj h ▸ s.min'_mem hs
  choose_none {s} h := by
    split_ifs at h with ha hs
    exact Finset.not_nonempty_iff_eq_empty.mp hs

@[simp] theorem Rng.prefer_choose [LinearOrder α] {a : α} {s : Finset α} (h : a ∈ s) :
    (Rng.prefer a).choose s = some a := if_pos h

end BigWorlds.Core
