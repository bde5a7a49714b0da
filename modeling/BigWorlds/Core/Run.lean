/-
Runs of a total step function. Nothing here is about a particular system: `step : σ → ο → σ` is any total transition
function (a disabled operation leaves the state as it is) and a run is the left fold of a list of operations.

- `run_inv`: an invariant that every allowed step keeps holds at the end of every allowed run;
- `run_keeps`: the same where every step keeps it;
- `along_of_inv`: where an invariant allows every step, every run is allowed;
- `forall_mem_modify`: what each of a list of components keeps in a step of its own, all of them keep;
- `run_inv_iff`: where `ok` is exactly when a step keeps the invariant, it holds all along exactly in allowed runs;
- `Along ok s ops`: every step of the run from `s` is one that `ok` allows in the state it starts from. The states
  reached inside a run are the ends of its prefixes (`Along.take`), so a statement about the end of every allowed run
  is a statement about every state such runs reach.
-/
import Mathlib.Data.List.Basic

namespace BigWorlds.Core

variable {σ ο : Type*}

def run (step : σ → ο → σ) (s : σ) (ops : List ο) : σ := ops.foldl step s

@[simp] theorem run_nil (step : σ → ο → σ) (s : σ) : run step s [] = s := rfl

@[simp] theorem run_cons (step : σ → ο → σ) (s : σ) (o : ο) (ops : List ο) :
    run step s (o :: ops) = run step (step s o) ops := rfl

theorem run_append (step : σ → ο → σ) (s : σ) (l₁ l₂ : List ο) :
    run step s (l₁ ++ l₂) = run step (run step s l₁) l₂ := by
  simp [run, List.foldl_append]

/-- every step of the run from the given state is one `ok` allows where it is taken -/
def Along (step : σ → ο → σ) (ok : σ → ο → Prop) : σ → List ο → Prop
  | _, [] => True
  | s, o :: ops => ok s o ∧ Along step ok (step s o) ops

instance Along.decidable (step : σ → ο → σ) (ok : σ → ο → Prop) [∀ s o, Decidable (ok s o)] :
    (s : σ) → (ops : List ο) → Decidable (Along step ok s ops)
  | _, [] => .isTrue trivial
  | s, o :: ops =>
    have := Along.decidable step ok (step s o) ops
    inferInstanceAs (Decidable (ok s o ∧ Along step ok (step s o) ops))

theorem Along.mono {step : σ → ο → σ} {ok ok' : σ → ο → Prop} (himp : ∀ s o, ok s o → ok' s o) {s : σ} {ops : List ο}
    (h : Along step ok s ops) : Along step ok' s ops := by
  induction ops generalizing s with
  | nil => trivial
  | cons o ops ih => exact ⟨himp s o h.1, ih h.2⟩

theorem Along.take {step : σ → ο → σ} {ok : σ → ο → Prop} {s : σ} {l₁ l₂ : List ο}
    (h : Along step ok s (l₁ ++ l₂)) : Along step ok s l₁ := by
  induction l₁ generalizing s with
  | nil => trivial
  | cons o l₁ ih => exact ⟨h.1, ih h.2⟩

theorem Along.drop {step : σ → ο → σ} {ok : σ → ο → Prop} {s : σ} {l₁ l₂ : List ο}
    (h : Along step ok s (l₁ ++ l₂)) : Along step ok (run step s l₁) l₂ := by
  induction l₁ generalizing s with
  | nil => exact h
  | cons o l₁ ih => exact ih h.2

/-- where an invariant that allowed steps keep makes the two the same, every step is one that either allows -/
theorem Along.congr {step : σ → ο → σ} {ok ok' : σ → ο → Prop} {Inv : σ → Prop}
    (hstep : ∀ s o, Inv s → ok s o → Inv (step s o)) (hok : ∀ s o, Inv s → (ok s o ↔ ok' s o)) {s : σ} {ops : List ο}
    (hs : Inv s) : Along step ok s ops ↔ Along step ok' s ops := by
  induction ops generalizing s with
  | nil => exact Iff.rfl
  | cons o ops ih =>
    calc Along step ok s (o :: ops)
        ↔ ok s o ∧ Along step ok' (step s o) ops := and_congr_right fun ho => ih (hstep s o hs ho)
      _ ↔ Along step ok' s (o :: ops) := and_congr_left' (hok s o hs)

/-- allowed all along: at each place of the list, in the state that the operations before it lead to -/
theorem along_iff {step : σ → ο → σ} {ok : σ → ο → Prop} {s : σ} {ops : List ο} :
    Along step ok s ops ↔ ∀ n o, ops[n]? = some o → ok (run step s (ops.take n)) o := by
  induction ops generalizing s with
  | nil => exact ⟨fun _ n o h => absurd h (by simp), fun _ => trivial⟩
  | cons o ops ih =>
    constructor
    · intro h n o' hn
      cases n with
      | zero =>
        obtain rfl := Option.some.inj hn
        exact h.1
      | succ n => exact ih.mp h.2 n o' hn
    · intro h
      exact ⟨h 0 o rfl, ih.mpr fun n o' hn => h (n + 1) o' hn⟩

/-- **The run rule.** What holds at the start and is kept by every allowed step holds at the end of every allowed
run. -/
theorem run_inv {step : σ → ο → σ} {ok : σ → ο → Prop} {Inv : σ → Prop}
    (hstep : ∀ s o, Inv s → ok s o → Inv (step s o)) {s : σ} {ops : List ο} (hs : Inv s)
    (h : Along step ok s ops) : Inv (run step s ops) := by
  induction ops generalizing s with
  | nil => exact hs
  | cons o ops ih => exact ih (hstep s o hs h.1) h.2

/-- what every step keeps, every run keeps -/
theorem run_keeps {step : σ → ο → σ} {Inv : σ → Prop} (hstep : ∀ s o, Inv s → Inv (step s o)) {s : σ} (hs : Inv s)
    (ops : List ο) : Inv (run step s ops) := by
  induction ops generalizing s with
  | nil => exact hs
  | cons o ops ih => exact ih (hstep s o hs)

/-- an invariant under which every step is allowed and kept -/
theorem along_of_inv {step : σ → ο → σ} {ok : σ → ο → Prop} {Inv : σ → Prop} (hok : ∀ s o, Inv s → ok s o)
    (hstep : ∀ s o, Inv s → ok s o → Inv (step s o)) {s : σ} (hs : Inv s) (ops : List ο) : Along step ok s ops := by
  induction ops generalizing s with
  | nil => trivial
  | cons o ops ih => exact ⟨hok s o hs, ih (hstep s o hs (hok s o hs))⟩

/-- **The exact run rule.** Where `ok` says exactly when a step keeps the invariant, the invariant holds after every
step of a run exactly when the run is allowed. -/
theorem run_inv_iff {step : σ → ο → σ} {ok : σ → ο → Prop} {Inv : σ → Prop}
    (hstep : ∀ s o, Inv s → (Inv (step s o) ↔ ok s o)) {s : σ} {ops : List ο} (hs : Inv s) :
    (∀ n, Inv (run step s (ops.take n))) ↔ Along step ok s ops := by
  constructor
  · intro h
    induction ops generalizing s with
    | nil => trivial
    | cons o ops ih =>
      have ho : Inv (step s o) := h 1
      exact ⟨(hstep s o hs).mp ho, ih ho fun n => h (n + 1)⟩
  · intro h n
    rw [← List.take_append_drop n ops] at h
    exact run_inv (fun s o hs ho => (hstep s o hs).mpr ho) hs h.take

/-- one of a list of components takes a step -/
theorem forall_mem_modify {Inv : σ → Prop} {f : σ → σ} (hf : ∀ s, Inv s → Inv (f s)) {l : List σ} (h : ∀ s ∈ l, Inv s)
    (i : ℕ) : ∀ s ∈ l.modify i f, Inv s := by
  intro s hs
  obtain ⟨j, hj, rfl⟩ := List.getElem_of_mem hs
  have hlt : j < l.length := by simpa using hj
  have hold : Inv l[j] := h _ (List.getElem_mem hlt)
  rw [List.getElem_modify]
  split
  · exact hf _ hold
  · exact hold

end BigWorlds.Core
