/-
The name tables of the block commands (`machine/cmd/flow/`) against the language.

The tables leave some openers out (an `if` does not know `loop`, `while`, `state`, `component` and `machine`; nobody but
a loop knows `loop`) and some count `else` as an opener (`for`, procedures, states, components, machines).

- `hidden`, `taken`: the openers of a stretch of lines that a search does not know, the `else` lines it takes for
  openers;
- `Fits`: over the body of a block the two balance out, and the hidden ones never get ahead;
- `Sound.search_own_iff`: the search of a block stops at the block's own end exactly where the block fits it;
- `if_search_own`: an `if` that fits also finds exactly its own `else` lines.
-/
import BigWorlds.Machine.Search
import Mathlib.Algebra.BigOperators.Ring.Finset

namespace BigWorlds.Machine

open BigWorlds.Core (Mark Part Nest Block depth firstClose)

/-! ## Hidden openers and `else` lines taken for openers -/

def opensBlock : Mark → Bool
  | .opens _ => true
  | _ => false

section
variable (d : Defs) (commands : List CommandPrototype)

/-- the line opens a block that the search does not know -/
def Defs.hides (m : ℕ) : Bool := opensBlock (mark commands m) && !opensBlock (d.seen commands m)

/-- the line divides a block and the search takes it for an opener -/
def Defs.takes (m : ℕ) : Bool := decide (mark commands m = .middle) && opensBlock (d.seen commands m)

def Defs.hidden (a b : ℕ) : ℕ := ((Finset.Ico a b).filter fun m => d.hides commands m).card

def Defs.taken (a b : ℕ) : ℕ := ((Finset.Ico a b).filter fun m => d.takes commands m).card

/-- from line `n` to line `b`, the hidden openers never outnumber the blocks open and the `else` lines taken -/
def Defs.Covered (n b : ℕ) : Prop :=
  ∀ m, n < m → m ≤ b →
    (d.hidden commands (n + 1) m : ℤ) ≤ depth (mark commands) (n + 1) m + d.taken commands (n + 1) m

/-- over the body of the block from `n` to `e` hidden openers and `else` lines taken balance out -/
def Defs.Fits (n e : ℕ) : Prop :=
  d.hidden commands (n + 1) e = d.taken commands (n + 1) e ∧ d.Covered commands n e

end

/-! ## The tables -/

/-- the tables of the search that the constructor of a block makes -/
def defsOf (name : String) : Option Defs :=
  if name ∈ ifCommandNames then some If.defs
  else if name ∈ loopCommandNames then some Loop.defs
  else if name ∈ forInCommandNames then some ForIn.defs
  else if name ∈ procedureCommandNames then some Procedure.defs
  else if name ∈ stateCommandNames then some State.defs
  else if name ∈ ["component", "comp"] then some ComponentBlock.defs
  else if name ∈ machineCommandNames then some MachineBlock.defs
  else none

/-- what all tables have in common: they know openers and `else` lines only, and close with `end` -/
structure Defs.Sound (d : Defs) : Prop where
  starts : d.starts ≠ []
  ends : d.ends = endCommandNames
  endBlocks : d.endBlocks = endCommandNames
  openers : ∀ n ∈ d.startBlocks ++ d.starts, n ∈ openerNames ∨ n ∈ elseCommandNames
  middles : ∀ n ∈ d.middles, n ∈ elseCommandNames

theorem sound_of_defsOf {name : String} {d : Defs} (h : defsOf name = some d) : d.Sound := by
  unfold defsOf at h
  split_ifs at h <;> obtain rfl := Option.some.inj h <;> constructor <;> decide

theorem opener_not_else : ∀ n ∈ openerNames, n ∉ elseCommandNames := by decide
theorem opener_not_end : ∀ n ∈ openerNames, n ∉ endCommandNames := by decide
theorem else_not_end : ∀ n ∈ elseCommandNames, n ∉ endCommandNames := by decide
theorem if_opens : ∀ n ∈ ifCommandNames, n ∈ openerNames := by decide

theorem markOf_opener {name : String} (h : name ∈ openerNames) : opensBlock (markOf name) = true := by
  unfold markOf
  split_ifs <;> rfl

theorem markOf_else {name : String} (h : name ∈ elseCommandNames) : markOf name = .middle := by
  have h₁ : name ∉ openerNames := fun ho => opener_not_else name ho h
  have h₂ : name ∉ ifCommandNames := fun hi => h₁ (if_opens name hi)
  rw [markOf, if_neg h₂, if_neg h₁, if_pos h]

theorem markOf_end {name : String} (h : name ∈ endCommandNames) : markOf name = .closes := by
  have h₁ : name ∉ openerNames := fun ho => opener_not_end name ho h
  have h₂ : name ∉ ifCommandNames := fun hi => h₁ (if_opens name hi)
  have h₃ : name ∉ elseCommandNames := fun he => else_not_end name he h
  rw [markOf, if_neg h₂, if_neg h₁, if_neg h₃, if_pos h]

theorem markOf_plain {name : String} (h₁ : name ∉ openerNames) (h₂ : name ∉ elseCommandNames)
    (h₃ : name ∉ endCommandNames) : markOf name = .plain := by
  rw [markOf, if_neg fun hi => h₁ (if_opens name hi), if_neg h₁, if_neg h₂, if_neg h₃]

theorem weight_of_opensBlock {m : Mark} (h : opensBlock m = true) : m.weight = 1 := by
  cases m <;> simp_all [opensBlock]

theorem weight_of_not_closes {m : Mark} (h : m ≠ .closes) : m.weight = if opensBlock m then 1 else 0 := by
  cases m <;> simp_all [opensBlock]

theorem Defs.Sound.view_end {d : Defs} (hd : d.Sound) {name : String} (h : name ∈ endCommandNames) :
    d.view name = .closes := by
  have hopen : ∀ n ∈ d.startBlocks ++ d.starts, n ≠ name := by
    rintro n hn rfl
    rcases hd.openers n hn with ho | he
    · exact opener_not_end n ho h
    · exact else_not_end n he h
  refine view_closes_iff.2 ⟨fun hs => hopen name (List.mem_append_left _ hs) rfl, fun hm => ?_, hd.ends ▸ h⟩
  exact else_not_end name (hd.middles name hm) h

/-- a name that a search counts as an opener is an opener or an `else` -/
theorem Defs.Sound.view_opens {d : Defs} (hd : d.Sound) {name : String} (h : opensBlock (d.view name) = true) :
    name ∈ openerNames ∨ name ∈ elseCommandNames := by
  apply hd.openers
  unfold Defs.view at h
  split_ifs at h with h₁ h₂ h₃ h₄
  · exact List.mem_append_left _ h₁
  · exact absurd h (by simp [opensBlock])
  · exact absurd h (by simp [opensBlock])
  · exact List.mem_append_right _ h₄
  · exact absurd h (by simp [opensBlock])

theorem Defs.Sound.view_weight {d : Defs} (hd : d.Sound) (name : String) :
    (d.view name).weight = (markOf name).weight -
      (if opensBlock (markOf name) && !opensBlock (d.view name) then 1 else 0) +
      (if decide (markOf name = .middle) && opensBlock (d.view name) then 1 else 0) := by
  by_cases hend : name ∈ endCommandNames
  · rw [hd.view_end hend, markOf_end hend]
    rfl
  · have hclose : d.view name ≠ .closes := fun hv => hend (hd.ends ▸ (view_closes_iff.1 hv).2.2)
    rw [weight_of_not_closes hclose]
    by_cases ho : name ∈ openerNames
    · have hm := markOf_opener ho
      have hne : markOf name ≠ .middle := fun heq => by simp [heq, opensBlock] at hm
      rw [weight_of_opensBlock hm, hm]
      cases opensBlock (d.view name) <;> simp [hne]
    · by_cases he : name ∈ elseCommandNames
      · rw [markOf_else he]
        cases opensBlock (d.view name) <;> simp [opensBlock]
      · have hv : opensBlock (d.view name) = false := by
          by_contra hv
          rcases hd.view_opens (Bool.not_eq_false _ ▸ hv) with h | h
          · exact ho h
          · exact he h
        rw [markOf_plain ho he hend, hv]
        rfl

/-- what a line weighs in a search: as in the language, less the hidden, plus the taken -/
theorem Defs.Sound.seen_weight {d : Defs} (hd : d.Sound) (commands : List CommandPrototype) (m : ℕ) :
    (d.seen commands m).weight = (mark commands m).weight - (if d.hides commands m then 1 else 0) +
      (if d.takes commands m then 1 else 0) := by
  unfold Defs.hides Defs.takes
  cases hn : nameAt commands m with
  | none =>
    have h₁ : d.seen commands m = .plain := by simp [Defs.seen, hn]
    have h₂ : mark commands m = .plain := by simp [mark, hn]
    rw [h₁, h₂]
    rfl
  | some name =>
    have h₁ : d.seen commands m = d.view name := by simp [Defs.seen, hn]
    have h₂ : mark commands m = markOf name := by simp [mark, hn]
    rw [h₁, h₂]
    exact hd.view_weight name

theorem Defs.Sound.depth_seen {d : Defs} (hd : d.Sound) (commands : List CommandPrototype) (a b : ℕ) :
    depth (d.seen commands) a b =
      depth (mark commands) a b - d.hidden commands a b + d.taken commands a b := by
  unfold depth Defs.hidden Defs.taken
  rw [Finset.card_filter, Finset.card_filter, Finset.sum_congr rfl fun m _ => hd.seen_weight commands m,
    Finset.sum_add_distrib, Finset.sum_sub_distrib]
  push_cast
  rfl

theorem Defs.Sound.seen_closes {d : Defs} (hd : d.Sound) {commands : List CommandPrototype} {m : ℕ}
    (h : mark commands m = .closes) : d.seen commands m = .closes := by
  unfold mark at h
  unfold Defs.seen
  cases hn : nameAt commands m with
  | none => simp [hn] at h
  | some name =>
    simp only [hn, Option.map_some, Option.getD_some] at h ⊢
    refine hd.view_end ?_
    by_contra hend
    by_cases ho : name ∈ openerNames
    · have := markOf_opener ho
      rw [h] at this
      exact absurd this (by simp [opensBlock])
    · by_cases he : name ∈ elseCommandNames
      · rw [markOf_else he] at h
        exact absurd h (by simp)
      · rw [markOf_plain ho he hend] at h
        exact absurd h (by simp)

/-! ## What a search finds -/

section
variable {d : Defs} {commands : List CommandPrototype} {n e : ℕ} {ms : List ℕ}

theorem Defs.Sound.firstClose_own_iff (hd : d.Sound) (hb : Block (mark commands) n ms e) (he : e < commands.length) :
    firstClose (d.seen commands) (commands.length - (n + 1)) (n + 1) 0 = some e ↔ d.Fits commands n e := by
  obtain ⟨f, _, hn⟩ := hb
  have hle := hn.le
  have hseen := hd.depth_seen commands (n + 1)
  have hend : depth (d.seen commands) (n + 1) (e + 1) = depth (d.seen commands) (n + 1) e + (-1) := by
    rw [Core.depth_succ hle, hd.seen_closes (hn.closes_end (by simp)), Mark.weight_closes]
  rw [Core.firstClose_eq_some_iff, hend, hseen e, hn.depth_end]
  constructor
  · rintro ⟨_, _, h₃, h₄⟩
    refine ⟨by omega, fun m h₁ h₂ => ?_⟩
    have := h₄ m h₁ h₂
    rw [hseen m] at this
    omega
  · rintro ⟨heq, hcov⟩
    refine ⟨hle, by omega, by omega, fun m h₁ h₂ => ?_⟩
    have := hcov m h₁ h₂
    rw [hseen m]
    omega

theorem Defs.Sound.firstClose_none_iff (hd : d.Sound) (hn : n < commands.length) :
    firstClose (d.seen commands) (commands.length - (n + 1)) (n + 1) 0 = none ↔
      d.Covered commands n commands.length := by
  rw [Core.firstClose_eq_none_iff]
  constructor
  · intro h m h₁ h₂
    have := h m h₁ (by omega)
    rw [hd.depth_seen commands (n + 1) m] at this
    omega
  · intro h m h₁ h₂
    have := h m h₁ (by omega)
    rw [hd.depth_seen commands (n + 1) m]
    omega

theorem Defs.Sound.search_some_iff (hd : d.Sound) :
    (∃ ms, commandSearch commands (n + 1) d true = .ok (some (e, ms))) ↔
      firstClose (d.seen commands) (commands.length - (n + 1)) (n + 1) 0 = some e := by
  have hspec := commandSearch_spec commands hd.starts (by rw [hd.ends]; decide)
    (hd.endBlocks.trans hd.ends.symm) (n + 1)
  cases hf : firstClose (d.seen commands) (commands.length - (n + 1)) (n + 1) 0 with
  | none =>
    rw [hf] at hspec
    obtain ⟨text, hs⟩ := hspec
    simp [hs]
  | some r =>
    rw [hf] at hspec
    obtain ⟨ms, hs⟩ := hspec
    simp [hs]

/-- the search stops at the block's own end exactly where the block fits it -/
theorem Defs.Sound.search_own_iff (hd : d.Sound) (hb : Block (mark commands) n ms e) (he : e < commands.length) :
    (∃ ms, commandSearch commands (n + 1) d true = .ok (some (e, ms))) ↔ d.Fits commands n e :=
  hd.search_some_iff.trans (hd.firstClose_own_iff hb he)

theorem Defs.Sound.search_none_iff (hd : d.Sound) (hn : n < commands.length) :
    (∀ e ms, commandSearch commands (n + 1) d true ≠ .ok (some (e, ms))) ↔
      d.Covered commands n commands.length := by
  rw [← hd.firstClose_none_iff hn, Option.eq_none_iff_forall_ne_some]
  refine forall_congr' fun e => ?_
  rw [ne_eq, ← hd.search_some_iff, not_exists]

end

/-! ## The `else` lines of an `if` -/

section
variable {commands : List CommandPrototype} {n e : ℕ} {ms : List ℕ}

theorem if_defs_sound : If.defs.Sound := sound_of_defsOf (show defsOf "if" = some If.defs by decide)

/-- the search of an `if` sees a name as it is, or hides it -/
theorem if_view (name : String) :
    If.defs.view name = markOf name ∨
      opensBlock (markOf name) = true ∧ opensBlock (If.defs.view name) = false := by
  have hs : If.defs.Sound := if_defs_sound
  by_cases ho : name ∈ openerNames
  · have h : ∀ name ∈ openerNames, If.defs.view name = markOf name ∨
        opensBlock (markOf name) = true ∧ opensBlock (If.defs.view name) = false := by decide
    exact h name ho
  · by_cases he : name ∈ elseCommandNames
    · have h : ∀ name ∈ elseCommandNames, If.defs.view name = markOf name := by decide
      exact Or.inl (h name he)
    · by_cases hend : name ∈ endCommandNames
      · exact Or.inl ((hs.view_end hend).trans (markOf_end hend).symm)
      · left
        rw [markOf_plain ho he hend, view_plain_iff]
        have hopen : name ∉ If.defs.startBlocks ++ If.defs.starts := fun h =>
          (hs.openers name h).elim ho he
        exact ⟨fun h => hopen (List.mem_append_left _ h), fun h => he (hs.middles name h), hend,
          fun h => hopen (List.mem_append_right _ h)⟩

theorem if_seen {m : ℕ} (h : If.defs.hides commands m = false) : If.defs.seen commands m = mark commands m := by
  unfold Defs.hides Defs.seen mark at *
  cases hn : nameAt commands m with
  | none => rfl
  | some name =>
    rw [hn] at h
    rcases if_view name with hv | ⟨h₁, h₂⟩
    · simpa using hv
    · simp [h₁, h₂] at h

theorem if_takes_nothing (a b : ℕ) : If.defs.taken commands a b = 0 := by
  rw [Defs.taken, Finset.card_eq_zero, Finset.filter_eq_empty_iff]
  intro m _ h
  simp only [Defs.takes, Bool.and_eq_true, decide_eq_true_eq] at h
  have hs : If.defs.seen commands m = mark commands m :=
    if_seen (by rw [Defs.hides, h.1]; rfl)
  rw [hs, h.1] at h
  exact absurd h.2 (by simp [opensBlock])

theorem if_search_own (hn : Nest (mark commands) (.arms true) (n + 1) ms e) (he : e < commands.length)
    (hf : If.defs.Fits commands n e) : commandSearch commands (n + 1) If.defs true = .ok (some (e, ms)) := by
  have hhid : ∀ m, n + 1 ≤ m → m < e → If.defs.hides commands m = false := by
    have h := hf.1.trans (if_takes_nothing (n + 1) e)
    rw [Defs.hidden, Finset.card_eq_zero, Finset.filter_eq_empty_iff] at h
    exact fun m h₁ h₂ => Bool.not_eq_true _ ▸ h (Finset.mem_Ico.mpr ⟨h₁, h₂⟩)
  have hs : If.defs.Sound := if_defs_sound
  have hscan := searchLines_nest rfl (fun m => hs.seen_closes) hn fun m h₁ h₂ => if_seen (hhid m h₁ h₂)
  have hle := hn.le
  have h := hscan (commands.length - (e + 1)) []
  rw [show e + 1 - (n + 1) + (commands.length - (e + 1)) = commands.length - (n + 1) by omega] at h
  exact h

end

/-- where a search takes no `else` line for an opener, a block fits it exactly if its body hides nothing from it -/
theorem fits_iff_of_takes_nothing {d : Defs} {commands : List CommandPrototype} {n e : ℕ} {ms : List ℕ}
    (h : ∀ a b, d.taken commands a b = 0) (hb : Block (mark commands) n ms e) :
    d.Fits commands n e ↔ d.hidden commands (n + 1) e = 0 := by
  obtain ⟨f, _, hn⟩ := hb
  refine ⟨fun hf => hf.1.trans (h _ _), fun h₀ => ⟨h₀.trans (h _ _).symm, fun m h₁ h₂ => ?_⟩⟩
  have hmono : d.hidden commands (n + 1) m ≤ d.hidden commands (n + 1) e :=
    Finset.card_le_card (Finset.filter_subset_filter _ (Finset.Ico_subset_Ico le_rfl h₂))
  have := hn.depth_nonneg h₁ h₂
  omega

end BigWorlds.Machine
