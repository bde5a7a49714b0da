/-
A work list: a stack from which the last element is taken, and what it expands to is put on. Nothing remembers what was
taken before, so the loop walks the whole tree that the expansion unfolds, and ends only if that tree is finite.

- `loop_iff`: what the loop does, turn by turn, as a relation `Ends` between the stack and the outcome;
- `ends_ok_iff`, `ends_error_iff`: it takes everything exactly if all expansions end (`Done`), and fails exactly if the
  last elements' expansions end up to one that fails (`Breaks`);
- `mem_taken_iff`, `twice_taken_iff`: what is taken is what is in the tree (`Found`), and it is taken twice exactly if
  it is there twice (`Twice`).
-/
import BigWorlds.Core.Loop
import Mathlib.Data.List.Induction

namespace BigWorlds.Core.Worklist

variable {α κ ε : Type} (expand : α → Except ε (List α))

/-- the elements that were taken, and the stack -/
def turn : List α × List α → Except ε ((List α × List α) ⊕ List α)
  | (taken, stack) =>
    match stack.getLast? with
    | none => .ok (.inr taken)
    | some a =>
      match expand a with
      | .ok children => .ok (.inl (taken ++ [a], stack.dropLast ++ children))
      | .error e => .error e

/-- the outcome from a stack: the elements in the order in which they are taken, or the error -/
inductive Ends : List α → Except ε (List α) → Prop where
  | nil : Ends [] (.ok [])
  | fail {l : List α} {a : α} {e : ε} : expand a = .error e → Ends (l ++ [a]) (.error e)
  | step {l children : List α} {a : α} {r : Except ε (List α)} :
      expand a = .ok children → Ends (l ++ children) r → Ends (l ++ [a]) (r.map (a :: ·))

/-- everything below the element is expanded without an error, and there is an end to it -/
inductive Done : α → Prop where
  | intro {a : α} {children : List α} : expand a = .ok children → (∀ c ∈ children, Done c) → Done a

/-- from the end of the list, an element is expanded or something below it is, that fails; what comes before it ends -/
inductive Breaks : List α → Prop where
  | here {l : List α} {a : α} {e : ε} : expand a = .error e → Breaks (l ++ [a])
  | under {l children : List α} {a : α} : expand a = .ok children → Breaks children → Breaks (l ++ [a])
  | before {l : List α} {a : α} : Done expand a → Breaks l → Breaks (l ++ [a])

variable {expand}

theorem turn_nil (taken : List α) : turn expand (taken, []) = .ok (.inr taken) := rfl

theorem turn_concat (taken l : List α) (a : α) : turn expand (taken, l ++ [a]) =
    (expand a).map fun children => .inl (taken ++ [a], l ++ children) := by
  simp only [turn, List.getLast?_append, List.getLast?_singleton, Option.some_or, List.dropLast_concat]
  cases expand a <;> rfl

/-! ## The loop -/

theorem loop_iff {taken stack : List α} {r : Except ε (List α)} :
    (∃ turns, loop (turn expand) turns (taken, stack) = some r) ↔
      ∃ r', Ends expand stack r' ∧ r = r'.map (taken ++ ·) := by
  constructor
  · rintro ⟨turns, h⟩
    induction turns generalizing taken stack with
    | zero => cases h
    | succ turns ih =>
      rw [loop_succ] at h
      rcases List.eq_nil_or_concat stack with rfl | ⟨l, a, rfl⟩
      · rw [turn_nil] at h
        obtain rfl := Option.some.inj h
        exact ⟨.ok [], .nil, by simp [Except.map]⟩
      · rw [List.concat_eq_append] at h ⊢
        rw [turn_concat] at h
        cases ha : expand a with
        | error e =>
          rw [ha] at h
          obtain rfl := Option.some.inj h
          exact ⟨.error e, .fail ha, rfl⟩
        | ok children =>
          rw [ha] at h
          obtain ⟨r', hends, rfl⟩ := ih h
          refine ⟨_, .step ha hends, ?_⟩
          cases r' <;> simp [Except.map]
  · rintro ⟨r', hends, rfl⟩
    induction hends generalizing taken with
    | nil => exact ⟨1, by simp [loop_succ, turn_nil, Except.map]⟩
    | fail ha => exact ⟨1, by rw [loop_succ, turn_concat, ha]; rfl⟩
    | @step l children a r ha _ ih =>
      obtain ⟨turns, h⟩ := @ih (taken ++ [a])
      refine ⟨turns + 1, ?_⟩
      rw [loop_succ, turn_concat, ha]
      apply h.trans
      cases r <;> simp [Except.map]

/-- there is one outcome -/
theorem Ends.unique {l : List α} {r r' : Except ε (List α)} (h : Ends expand l r) (h' : Ends expand l r') : r = r' := by
  obtain ⟨turns, hloop⟩ := (@loop_iff _ _ expand [] l _).mpr ⟨r, h, rfl⟩
  obtain ⟨turns', hloop'⟩ := (@loop_iff _ _ expand [] l _).mpr ⟨r', h', rfl⟩
  have hsame := (loop_mono hloop (Nat.le_add_right turns turns')).symm.trans
    (loop_mono hloop' (Nat.le_add_left turns' turns))
  cases r <;> cases r' <;> simp_all [Except.map]

/-! ## When it ends -/

/-- the element is taken off, with what is below it in the tree, whatever the rest of the stack is -/
def Takes (expand : α → Except ε (List α)) (a : α) : Prop :=
  ∀ (l : List α) (r : Except ε (List α)), Ends expand l r → ∃ taken, Ends expand (l ++ [a]) (r.map (taken ++ ·))

theorem Ends.append {l cs : List α} {r : Except ε (List α)} (h : Ends expand l r) (hcs : ∀ c ∈ cs, Takes expand c) :
    ∃ taken, Ends expand (l ++ cs) (r.map (taken ++ ·)) := by
  induction cs generalizing l r with
  | nil =>
    refine ⟨[], ?_⟩
    cases r <;> simpa [Except.map] using h
  | cons c cs ih =>
    obtain ⟨t₁, h₁⟩ := hcs c List.mem_cons_self l r h
    obtain ⟨t₂, h₂⟩ := ih h₁ fun c' hc' => hcs c' (List.mem_cons_of_mem c hc')
    refine ⟨t₂ ++ t₁, ?_⟩
    cases r <;> simpa [Except.map] using h₂

theorem Done.takes {a : α} (h : Done expand a) : Takes expand a := by
  induction h with
  | @intro a children hexpand _ ih =>
    intro l r hends
    obtain ⟨taken, htaken⟩ := hends.append ih
    have hstep := Ends.step hexpand htaken
    refine ⟨a :: taken, ?_⟩
    cases r <;> simpa [Except.map] using hstep

/-- **Success.** -/
theorem ends_ok_iff {l : List α} : (∃ taken, Ends expand l (.ok taken)) ↔ ∀ a ∈ l, Done expand a := by
  constructor
  · rintro ⟨taken, h⟩
    generalize hr : Except.ok taken = r at h
    induction h generalizing taken with
    | nil => simp
    | fail ha => cases hr
    | @step l children a r ha _ ih =>
      cases r with
      | error e => cases hr
      | ok rest =>
        have hall := ih rest rfl
        rw [List.forall_mem_append] at hall ⊢
        refine ⟨hall.1, ?_⟩
        rw [List.forall_mem_singleton]
        exact .intro ha hall.2
  · intro h
    obtain ⟨taken, htaken⟩ := (@Ends.nil α ε expand).append fun c hc => (h c hc).takes
    exact ⟨_, htaken⟩

theorem breaks_concat_iff {l : List α} {a : α} : Breaks expand (l ++ [a]) ↔ (∃ e, expand a = .error e) ∨
    (∃ children, expand a = .ok children ∧ Breaks expand children) ∨ Done expand a ∧ Breaks expand l := by
  constructor
  · intro h
    generalize hstack : l ++ [a] = stack at h
    cases h with
    | here ha =>
      obtain ⟨rfl, hlast⟩ := List.append_inj' hstack rfl
      obtain rfl := List.singleton_inj.mp hlast
      exact Or.inl ⟨_, ha⟩
    | under ha hchildren =>
      obtain ⟨rfl, hlast⟩ := List.append_inj' hstack rfl
      obtain rfl := List.singleton_inj.mp hlast
      exact Or.inr (Or.inl ⟨_, ha, hchildren⟩)
    | before ha hl =>
      obtain ⟨rfl, hlast⟩ := List.append_inj' hstack rfl
      obtain rfl := List.singleton_inj.mp hlast
      exact Or.inr (Or.inr ⟨ha, hl⟩)
  · rintro (⟨e, ha⟩ | ⟨children, ha, hchildren⟩ | ⟨ha, hl⟩)
    · exact .here ha
    · exact .under ha hchildren
    · exact .before ha hl

theorem breaks_append {l cs : List α} (h : Breaks expand (l ++ cs)) :
    Breaks expand cs ∨ (∀ c ∈ cs, Done expand c) ∧ Breaks expand l := by
  induction cs using List.reverseRecOn with
  | nil => exact Or.inr ⟨by simp, by simpa using h⟩
  | append_singleton cs c ih =>
    rw [← List.append_assoc, breaks_concat_iff] at h
    rcases h with herror | hunder | ⟨hc, hbefore⟩
    · exact Or.inl (breaks_concat_iff.2 (Or.inl herror))
    · exact Or.inl (breaks_concat_iff.2 (Or.inr (Or.inl hunder)))
    · rcases ih hbefore with hcs | ⟨hcs, hl⟩
      · exact Or.inl (.before hc hcs)
      · refine Or.inr ⟨?_, hl⟩
        rw [List.forall_mem_append, List.forall_mem_singleton]
        exact ⟨hcs, hc⟩

/-- **Failure.** -/
theorem ends_error_iff {l : List α} : (∃ e, Ends expand l (.error e)) ↔ Breaks expand l := by
  constructor
  · rintro ⟨e, h⟩
    generalize hr : Except.error e = r at h
    induction h with
    | nil => cases hr
    | fail ha => exact .here ha
    | @step l children a r ha _ ih =>
      cases r with
      | ok rest => cases hr
      | error e' =>
        obtain rfl := Except.error.inj hr
        rcases breaks_append (ih rfl) with hchildren | ⟨hdone, hl⟩
        · exact .under ha hchildren
        · exact .before (.intro ha hdone) hl
  · intro h
    have hall : ∀ l₀, ∃ e, Ends expand (l₀ ++ l) (.error e) := by
      induction h with
      | @here l a e ha =>
        intro l₀
        rw [← List.append_assoc]
        exact ⟨e, .fail ha⟩
      | @under l children a ha _ ih =>
        intro l₀
        obtain ⟨e, hends⟩ := ih (l₀ ++ l)
        rw [← List.append_assoc]
        exact ⟨e, .step ha hends⟩
      | @before l a ha _ ih =>
        intro l₀
        obtain ⟨e, hends⟩ := ih l₀
        obtain ⟨taken, htaken⟩ := ha.takes _ _ hends
        rw [← List.append_assoc]
        exact ⟨e, htaken⟩
    exact hall []

/-! ## What it takes -/

variable (expand) (key : α → Option κ) (k : κ)

/-- an element with this key is in the tree -/
inductive Found : List α → Prop where
  | here {l : List α} {a : α} : a ∈ l → key a = some k → Found l
  | under {l children : List α} {a : α} : a ∈ l → expand a = .ok children → Found children → Found l

/-- two places of the tree have elements with this key -/
inductive Twice : List α → Prop where
  | above {l children : List α} {a : α} : a ∈ l → key a = some k → expand a = .ok children →
      Found expand key k children → Twice l
  | under {l children : List α} {a : α} : a ∈ l → expand a = .ok children → Twice children → Twice l
  | apart {l l' : List α} : Found expand key k l → Found expand key k l' → Twice (l ++ l')

variable {expand key k}

theorem found_append {l l' : List α} :
    Found expand key k (l ++ l') ↔ Found expand key k l ∨ Found expand key k l' := by
  constructor
  · intro h
    cases h with
    | here ha hkey => exact (List.mem_append.mp ha).imp (.here · hkey) (.here · hkey)
    | under ha hexpand hfound =>
      exact (List.mem_append.mp ha).imp (.under · hexpand hfound) (.under · hexpand hfound)
  · rintro (h | h)
    · cases h with
      | here ha hkey => exact .here (List.mem_append_left l' ha) hkey
      | under ha hexpand hfound => exact .under (List.mem_append_left l' ha) hexpand hfound
    · cases h with
      | here ha hkey => exact .here (List.mem_append_right l ha) hkey
      | under ha hexpand hfound => exact .under (List.mem_append_right l ha) hexpand hfound

theorem found_nil : ¬ Found expand key k [] := by
  rintro (⟨ha, _⟩ | ⟨ha, _, _⟩)
  · exact List.not_mem_nil ha
  · exact List.not_mem_nil ha

theorem found_singleton {a : α} {children : List α} (ha : expand a = .ok children) :
    Found expand key k [a] ↔ key a = some k ∨ Found expand key k children := by
  constructor
  · intro h
    cases h with
    | here hmem hkey =>
      obtain rfl := List.mem_singleton.mp hmem
      exact Or.inl hkey
    | under hmem hexpand hfound =>
      obtain rfl := List.mem_singleton.mp hmem
      obtain rfl := Except.ok.inj (ha.symm.trans hexpand)
      exact Or.inr hfound
  · rintro (hkey | hfound)
    · exact .here (List.mem_singleton_self a) hkey
    · exact .under (List.mem_singleton_self a) ha hfound

theorem twice_append {l l' : List α} : Twice expand key k (l ++ l') ↔
    Twice expand key k l ∨ Twice expand key k l' ∨ Found expand key k l ∧ Found expand key k l' := by
  constructor
  · intro h
    generalize hstack : l ++ l' = stack at h
    cases h with
    | above ha hkey hexpand hfound =>
      rcases List.mem_append.mp (hstack ▸ ha) with ha | ha
      · exact Or.inl (.above ha hkey hexpand hfound)
      · exact Or.inr (Or.inl (.above ha hkey hexpand hfound))
    | under ha hexpand htwice =>
      rcases List.mem_append.mp (hstack ▸ ha) with ha | ha
      · exact Or.inl (.under ha hexpand htwice)
      · exact Or.inr (Or.inl (.under ha hexpand htwice))
    | apart h₁ h₂ =>
      rcases List.append_eq_append_iff.mp hstack with ⟨m, rfl, rfl⟩ | ⟨m, rfl, rfl⟩
      · rcases found_append.1 h₁ with h₁ | h₁
        · exact Or.inr (Or.inr ⟨h₁, found_append.2 (Or.inr h₂)⟩)
        · exact Or.inr (Or.inl (.apart h₁ h₂))
      · rcases found_append.1 h₂ with h₂ | h₂
        · exact Or.inl (.apart h₁ h₂)
        · exact Or.inr (Or.inr ⟨found_append.2 (Or.inl h₁), h₂⟩)
  · rintro (h | h | ⟨h₁, h₂⟩)
    · cases h with
      | above ha hkey hexpand hfound => exact .above (List.mem_append_left l' ha) hkey hexpand hfound
      | under ha hexpand htwice => exact .under (List.mem_append_left l' ha) hexpand htwice
      | apart h₁ h₂ =>
        rw [List.append_assoc]
        exact .apart h₁ (found_append.2 (Or.inl h₂))
    · cases h with
      | above ha hkey hexpand hfound => exact .above (List.mem_append_right l ha) hkey hexpand hfound
      | under ha hexpand htwice => exact .under (List.mem_append_right l ha) hexpand htwice
      | apart h₁ h₂ =>
        rw [← List.append_assoc]
        exact .apart (found_append.2 (Or.inr h₁)) h₂
    · exact .apart h₁ h₂

theorem twice_singleton {a : α} {children : List α} (ha : expand a = .ok children) : Twice expand key k [a] ↔
    key a = some k ∧ Found expand key k children ∨ Twice expand key k children := by
  constructor
  · intro h
    generalize hstack : [a] = stack at h
    cases h with
    | above hmem hkey hexpand hfound =>
      obtain rfl := List.mem_singleton.mp (hstack ▸ hmem)
      obtain rfl := Except.ok.inj (ha.symm.trans hexpand)
      exact Or.inl ⟨hkey, hfound⟩
    | under hmem hexpand htwice =>
      obtain rfl := List.mem_singleton.mp (hstack ▸ hmem)
      obtain rfl := Except.ok.inj (ha.symm.trans hexpand)
      exact Or.inr htwice
    | apart h₁ h₂ =>
      rcases List.append_eq_singleton_iff.mp hstack.symm with ⟨rfl, _⟩ | ⟨_, rfl⟩
      · exact absurd h₁ found_nil
      · exact absurd h₂ found_nil
  · rintro (⟨hkey, hfound⟩ | htwice)
    · exact .above (List.mem_singleton_self a) hkey ha hfound
    · exact .under (List.mem_singleton_self a) ha htwice

/-- how often a key is taken: at least once where it is found, at least twice where it is there twice -/
theorem count_taken [DecidableEq κ] {l taken : List α} (h : Ends expand l (.ok taken)) (k : κ) :
    (1 ≤ (taken.filterMap key).count k ↔ Found expand key k l) ∧
      (2 ≤ (taken.filterMap key).count k ↔ Twice expand key k l) := by
  generalize hr : Except.ok taken = r at h
  induction h generalizing taken with
  | nil =>
    obtain rfl := Except.ok.inj hr
    refine ⟨iff_of_false (by simp) found_nil, iff_of_false (by simp) fun htwice => ?_⟩
    generalize hstack : ([] : List α) = stack at htwice
    cases htwice with
    | above hmem _ _ _ => exact List.not_mem_nil (hstack ▸ hmem)
    | under hmem _ _ => exact List.not_mem_nil (hstack ▸ hmem)
    | apart h₁ _ =>
      rw [(List.append_eq_nil_iff.mp hstack.symm).1] at h₁
      exact found_nil h₁
  | fail ha => cases hr
  | @step l children a r ha _ ih =>
    cases r with
    | error e => cases hr
    | ok rest =>
      obtain rfl := Except.ok.inj hr
      obtain ⟨hfound, htwice⟩ := ih rfl
      rw [found_append] at hfound
      rw [twice_append] at htwice
      rw [found_append, twice_append, found_singleton ha, twice_singleton ha]
      have hone : 2 ≤ (rest.filterMap key).count k → 1 ≤ (rest.filterMap key).count k := by omega
      rw [hfound, htwice] at hone
      by_cases hkey : key a = some k
      · rw [List.filterMap_cons_some hkey, List.count_cons_self]
        have htwo : 2 ≤ (rest.filterMap key).count k + 1 ↔ 1 ≤ (rest.filterMap key).count k := by omega
        rw [htwo, hfound]
        refine ⟨iff_of_true (by omega) (Or.inr (Or.inl hkey)), ?_⟩
        constructor
        · rintro (hl | hchildren)
          · exact Or.inr (Or.inr ⟨hl, Or.inl hkey⟩)
          · exact Or.inr (Or.inl (Or.inl ⟨hkey, hchildren⟩))
        · rintro (hl | (⟨_, hchildren⟩ | hchildren) | ⟨hl, _⟩)
          · exact hone (Or.inl hl)
          · exact Or.inr hchildren
          · exact hone (Or.inr (Or.inl hchildren))
          · exact Or.inl hl
      · have hsame : ((a :: rest).filterMap key).count k = (rest.filterMap key).count k := by
          rw [List.filterMap_cons]
          cases hother : key a with
          | none => rfl
          | some k' =>
            apply List.count_cons_of_ne
            intro heq
            apply hkey
            rw [hother, heq]
        rw [hsame, hfound, htwice]
        simp only [hkey, false_and, false_or, and_self]

theorem mem_taken_iff [DecidableEq κ] {l taken : List α} (h : Ends expand l (.ok taken)) {k : κ} :
    k ∈ taken.filterMap key ↔ Found expand key k l := by
  rw [← (count_taken h k).1, Nat.one_le_iff_ne_zero, ← Nat.pos_iff_ne_zero, List.count_pos_iff]

theorem twice_taken_iff [DecidableEq κ] {l taken : List α} (h : Ends expand l (.ok taken)) {k : κ} :
    2 ≤ (taken.filterMap key).count k ↔ Twice expand key k l := (count_taken h k).2

end BigWorlds.Core.Worklist
