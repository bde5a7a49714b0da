/-
What `command_search` finds (`machine/mod.rs`). The names a search knows give every line a mark of its own, `Defs.seen`,
which need not be the mark of the language, `mark`.

- `searchLines_collects`: the search ends at the line where the depth seen first goes below zero, with the dividing
  lines met outside of the blocks it searches by recursion, and fails if there is none; `searchLines_spec`: the end;
- `searchLines_nest`: where an `if`'s search sees every line as it is, it collects the block's own dividing lines.
-/
import BigWorlds.Core.Nesting
import BigWorlds.Machine.Command

namespace BigWorlds.Machine

open BigWorlds.Core (Mark Part Nest Block Ends OwnMiddles depth firstClose)

/-! ## Marks -/

def nameAt (commands : List CommandPrototype) (n : ℕ) : Option String := (commands[n]?).bind (·.name)

/-- the names that open a block -/
def openerNames : List String :=
  ifCommandNames ++ loopCommandNames ++ forInCommandNames ++ procedureCommandNames ++ stateCommandNames ++
    ["component", "comp"] ++ machineCommandNames

/-- what a command's name means for blocks; only an `if` may be divided -/
def markOf (name : String) : Mark :=
  if name ∈ ifCommandNames then .opens true
  else if name ∈ openerNames then .opens false
  else if name ∈ elseCommandNames then .middle
  else if name ∈ endCommandNames then .closes
  else .plain

def mark (commands : List CommandPrototype) (n : ℕ) : Mark := ((nameAt commands n).map markOf).getD .plain

/-- the whole list is a sequence of blocks -/
def WellNested (commands : List CommandPrototype) : Prop := Nest (mark commands) .seq 0 [] commands.length

/-- what a name means to a search; `opens true` is a block that it searches by recursion -/
def Defs.view (d : Defs) (name : String) : Mark :=
  if name ∈ d.startBlocks then .opens false
  else if name ∈ d.middles then .middle
  else if name ∈ d.ends then .closes
  else if name ∈ d.starts then .opens true
  else .plain

def Defs.seen (d : Defs) (commands : List CommandPrototype) (n : ℕ) : Mark :=
  ((nameAt commands n).map d.view).getD .plain

/-! ## One line of a search -/

section
variable {commands : List CommandPrototype} {d : Defs} {name : String} {k line skipTo diff : ℕ} {mids : List ℕ}

theorem view_block_iff : d.view name = .opens false ↔ name ∈ d.startBlocks := by
  unfold Defs.view
  split_ifs <;> simp_all

theorem view_middle_iff : d.view name = .middle ↔ name ∉ d.startBlocks ∧ name ∈ d.middles := by
  unfold Defs.view
  split_ifs <;> simp_all

theorem view_closes_iff :
    d.view name = .closes ↔ name ∉ d.startBlocks ∧ name ∉ d.middles ∧ name ∈ d.ends := by
  unfold Defs.view
  split_ifs <;> simp_all

theorem view_own_iff :
    d.view name = .opens true ↔ name ∉ d.startBlocks ∧ name ∉ d.middles ∧ name ∉ d.ends ∧ name ∈ d.starts := by
  unfold Defs.view
  split_ifs <;> simp_all

theorem view_plain_iff :
    d.view name = .plain ↔ name ∉ d.startBlocks ∧ name ∉ d.middles ∧ name ∉ d.ends ∧ name ∉ d.starts := by
  unfold Defs.view
  split_ifs <;> simp_all

/-- a line that means something to a search has a name -/
theorem name_of_seen {m : Mark} (hm : d.seen commands line = m) (hp : m ≠ .plain) :
    ∃ name, (commands[line]?).bind (·.name) = some name ∧ d.view name = m := by
  unfold Defs.seen nameAt at hm
  cases hn : (commands[line]?).bind (·.name) with
  | none => rw [hn] at hm; exact absurd hm.symm hp
  | some name => rw [hn] at hm; exact ⟨name, rfl, hm⟩

theorem searchLines_skip (h : line < skipTo) :
    searchLines commands d true (k + 1) line skipTo diff mids =
      searchLines commands d true k (line + 1) skipTo diff mids :=
  if_pos h

/-- what a search does at a line that it reads and that has a name -/
theorem searchLines_read (h : skipTo ≤ line) {name : String}
    (hn : (commands[line]?).bind (·.name) = some name) :
    searchLines commands d true (k + 1) line skipTo diff mids =
      if name ∈ d.startBlocks then searchLines commands d true k (line + 1) skipTo (diff + 1) mids
      else if name ∈ d.middles then searchLines commands d true k (line + 1) skipTo diff (mids ++ [line])
      else if name ∈ d.endBlocks ∧ 0 < diff then searchLines commands d true k (line + 1) skipTo (diff - 1) mids
      else if name ∈ d.ends then .ok (some (line, mids))
      else if name ∈ d.starts then
        match searchLines commands d true k (line + 1) (line + 1) 0 [] with
        | .ok (some (e, _)) => searchLines commands d true k (line + 1) (e + 1) diff mids
        | .ok none => .error ("bad nesting: got " ++ name ++ " but end not found")
        | .error e => .error e
      else searchLines commands d true k (line + 1) skipTo diff mids := by
  rw [searchLines, if_neg (Nat.not_lt.mpr h), hn]
  rfl

theorem searchLines_plain (h : skipTo ≤ line) (he : d.endBlocks = d.ends) (hm : d.seen commands line = .plain) :
    searchLines commands d true (k + 1) line skipTo diff mids =
      searchLines commands d true k (line + 1) skipTo diff mids := by
  cases hn : (commands[line]?).bind (·.name) with
  | none => exact Eq.trans (if_neg (Nat.not_lt.mpr h)) (by rw [hn])
  | some name =>
    obtain ⟨h₁, h₂, h₃, h₄⟩ := view_plain_iff.1 (show d.view name = .plain by
      rwa [Defs.seen, nameAt, hn] at hm)
    rw [searchLines_read h hn]
    simp [h₁, h₂, h₃, h₄, he]

theorem searchLines_middle (h : skipTo ≤ line) (hm : d.seen commands line = .middle) :
    searchLines commands d true (k + 1) line skipTo diff mids =
      searchLines commands d true k (line + 1) skipTo diff (mids ++ [line]) := by
  obtain ⟨name, hn, hv⟩ := name_of_seen hm (by simp)
  obtain ⟨h₁, h₂⟩ := view_middle_iff.1 hv
  rw [searchLines_read h hn]
  simp [h₁, h₂]

theorem searchLines_block (h : skipTo ≤ line) (hm : d.seen commands line = .opens false) :
    searchLines commands d true (k + 1) line skipTo diff mids =
      searchLines commands d true k (line + 1) skipTo (diff + 1) mids := by
  obtain ⟨name, hn, hv⟩ := name_of_seen hm (by simp)
  rw [searchLines_read h hn]
  simp [view_block_iff.1 hv]

theorem searchLines_closes (h : skipTo ≤ line) (hm : d.seen commands line = .closes) :
    searchLines commands d true (k + 1) line skipTo 0 mids = .ok (some (line, mids)) := by
  obtain ⟨name, hn, hv⟩ := name_of_seen hm (by simp)
  obtain ⟨h₁, h₂, h₃⟩ := view_closes_iff.1 hv
  rw [searchLines_read h hn]
  simp [h₁, h₂, h₃]

theorem searchLines_closes_block (h : skipTo ≤ line) (he : d.endBlocks = d.ends)
    (hm : d.seen commands line = .closes) :
    searchLines commands d true (k + 1) line skipTo (diff + 1) mids =
      searchLines commands d true k (line + 1) skipTo diff mids := by
  obtain ⟨name, hn, hv⟩ := name_of_seen hm (by simp)
  obtain ⟨h₁, h₂, h₃⟩ := view_closes_iff.1 hv
  rw [searchLines_read h hn]
  simp [h₁, h₂, h₃, he]

/-- a block of the searched kind: its own search comes first, then the lines up to its end are skipped -/
theorem searchLines_own (h : skipTo ≤ line) (he : d.endBlocks = d.ends) (hm : d.seen commands line = .opens true)
    {e : ℕ} {ms : List ℕ} (hin : searchLines commands d true k (line + 1) (line + 1) 0 [] = .ok (some (e, ms))) :
    searchLines commands d true (k + 1) line skipTo diff mids =
      searchLines commands d true k (line + 1) (e + 1) diff mids := by
  obtain ⟨name, hn, hv⟩ := name_of_seen hm (by simp)
  obtain ⟨h₁, h₂, h₃, h₄⟩ := view_own_iff.1 hv
  rw [searchLines_read h hn]
  simp [h₁, h₂, h₃, h₄, he, hin]

theorem searchLines_own_error (h : skipTo ≤ line) (he : d.endBlocks = d.ends)
    (hm : d.seen commands line = .opens true) {text : String}
    (hin : searchLines commands d true k (line + 1) (line + 1) 0 [] = .error text) :
    searchLines commands d true (k + 1) line skipTo diff mids = .error text := by
  obtain ⟨name, hn, hv⟩ := name_of_seen hm (by simp)
  obtain ⟨h₁, h₂, h₃, h₄⟩ := view_own_iff.1 hv
  rw [searchLines_read h hn]
  simp [h₁, h₂, h₃, h₄, he, hin]

/-- a skip that has been reached says nothing -/
theorem searchLines_skipTo_irrel (he : d.endBlocks = d.ends) {skipTo' : ℕ} (h : skipTo ≤ line) (h' : skipTo' ≤ line) :
    searchLines commands d true k line skipTo diff mids = searchLines commands d true k line skipTo' diff mids := by
  induction k generalizing line diff mids with
  | zero => rfl
  | succ k ih =>
    rcases hm : d.seen commands line with _ | f | _ | _
    · rw [searchLines_plain h he hm, searchLines_plain h' he hm, ih (by omega) (by omega)]
    · cases f with
      | false => rw [searchLines_block h hm, searchLines_block h' hm, ih (by omega) (by omega)]
      | true =>
        obtain ⟨name, hn, hv⟩ := name_of_seen hm (by simp)
        obtain ⟨h₁, h₂, h₃, h₄⟩ := view_own_iff.1 hv
        rw [searchLines_read h hn, searchLines_read h' hn]
        simp [h₁, h₂, h₃, h₄, he]
    · rw [searchLines_middle h hm, searchLines_middle h' hm, ih (by omega) (by omega)]
    · cases diff with
      | zero => rw [searchLines_closes h hm, searchLines_closes h' hm]
      | succ diff => rw [searchLines_closes_block h he hm, searchLines_closes_block h' he hm, ih (by omega) (by omega)]

/-- a search told to skip ahead starts where it is told -/
theorem searchLines_ahead (commands : List CommandPrototype) (d : Defs) (k line diff : ℕ) (mids : List ℕ) (j : ℕ) :
    searchLines commands d true (j + k) line (line + j) diff mids =
      searchLines commands d true k (line + j) (line + j) diff mids := by
  induction j generalizing line with
  | zero => simp
  | succ j ih =>
    rw [show j + 1 + k = (j + k) + 1 by omega, searchLines_skip (by omega),
      show line + (j + 1) = (line + 1) + j by omega, ih]

/-- past the block that a recursive search ended -/
theorem searchLines_past {e : ℕ} (h₁ : line ≤ e + 1) (h₂ : e + 1 ≤ line + k) :
    searchLines commands d true k line (e + 1) diff mids =
      searchLines commands d true (line + k - (e + 1)) (e + 1) (e + 1) diff mids := by
  obtain ⟨j, rfl⟩ : ∃ j, k = (e + 1 - line) + j := ⟨k - (e + 1 - line), by omega⟩
  have hahead := searchLines_ahead commands d j line diff mids (e + 1 - line)
  rw [show line + (e + 1 - line) = e + 1 by omega] at hahead
  rw [hahead, show line + (e + 1 - line + j) - (e + 1) = j by omega]

end

/-! ## The end found -/

section
variable {commands : List CommandPrototype} {d : Defs}

/-- how a search from a line on ends if `found` is where it should -/
def Collects (commands : List CommandPrototype) (d : Defs) (line : ℕ) (mids : List ℕ)
    (result : Except String (Option (ℕ × List ℕ))) : Option ℕ → Prop
  | some e => ∃ ms, OwnMiddles (d.seen commands) line e ms ∧ result = .ok (some (e, mids ++ ms))
  | none => ∃ text, result = .error text

namespace Collects

variable {line : ℕ} {mids : List ℕ} {result : Except String (Option (ℕ × List ℕ))} {found : Option ℕ}

theorem skip (h : Collects commands d (line + 1) mids result found) (hmid : d.seen commands line ≠ .middle)
    (hopens : d.seen commands line ≠ .opens true) : Collects commands d line mids result found := by
  cases found with
  | none => exact h
  | some e =>
    obtain ⟨ms, hown, hms⟩ := h
    exact ⟨ms, hown.skip hmid hopens, hms⟩

theorem middle (h : Collects commands d (line + 1) (mids ++ [line]) result found)
    (hm : d.seen commands line = .middle) (hlt : ∀ e, found = some e → line < e) :
    Collects commands d line mids result found := by
  cases found with
  | none => exact h
  | some e =>
    obtain ⟨ms, hown, hms⟩ := h
    refine ⟨line :: ms, hown.cons (hlt e rfl) hm, ?_⟩
    rw [hms, List.append_assoc]
    rfl

theorem past {e : ℕ} (h : Collects commands d (e + 1) mids result found) (hends : Ends (d.seen commands) (line + 1) e)
    (hm : d.seen commands line = .opens true) : Collects commands d line mids result found := by
  cases found with
  | none => exact h
  | some e' =>
    obtain ⟨ms, hown, hms⟩ := h
    exact ⟨ms, hown.past hends hm, hms⟩

end Collects

/-- **What a search finds.** The first line that closes more than the search has seen opening, and before it the
dividing lines that stand in no block searched by recursion. -/
theorem searchLines_collects (he : d.endBlocks = d.ends) (k line diff : ℕ) (mids : List ℕ) :
    Collects commands d line mids (searchLines commands d true k line line diff mids)
      (firstClose (d.seen commands) k line diff) := by
  induction k using Nat.strong_induction_on generalizing line diff mids with
  | _ k ih =>
  cases k with
  | zero => exact ⟨_, rfl⟩
  | succ k =>
    -- the next line, with the skip it leaves behind
    have next : ∀ (diff : ℕ) (mids : List ℕ),
        Collects commands d (line + 1) mids (searchLines commands d true k (line + 1) line diff mids)
          (firstClose (d.seen commands) k (line + 1) diff) := by
      intro diff mids
      rw [searchLines_skipTo_irrel he (Nat.le_succ line) (le_refl (line + 1))]
      exact ih k (Nat.lt_succ_self k) (line + 1) diff mids
    rcases hm : d.seen commands line with _ | f | _ | _
    · rw [searchLines_plain le_rfl he hm, Core.firstClose_succ k diff (by simp [hm])]
      exact (next diff mids).skip (by simp [hm]) (by simp [hm])
    · rw [Core.firstClose_succ k (diff + 1) (by simp [hm])]
      cases f with
      | false =>
        rw [searchLines_block le_rfl hm]
        exact (next (diff + 1) mids).skip (by simp [hm]) (by simp [hm])
      | true =>
        rw [Core.firstClose_split]
        have hin := ih k (Nat.lt_succ_self k) (line + 1) 0 []
        cases hf : firstClose (d.seen commands) k (line + 1) 0 with
        | none =>
          rw [hf] at hin
          obtain ⟨text, hin⟩ := hin
          exact ⟨text, searchLines_own_error le_rfl he hm hin⟩
        | some e =>
          rw [hf] at hin
          obtain ⟨_, _, hin⟩ := hin
          obtain ⟨hends, hlt⟩ := Core.firstClose_zero_iff.mp hf
          have hle := hends.le
          rw [searchLines_own le_rfl he hm hin, Option.bind_some, searchLines_past (by omega) (by omega)]
          exact (ih _ (by omega) (e + 1) diff mids).past hends hm
    · rw [searchLines_middle le_rfl hm, Core.firstClose_succ k diff (by simp [hm])]
      refine (next diff (mids ++ [line])).middle hm ?_
      intro e hf
      exact (Core.firstClose_eq_some_iff.mp hf).1
    · cases diff with
      | zero =>
        rw [Core.firstClose_closes k hm]
        refine ⟨[], OwnMiddles.nil _ line, ?_⟩
        rw [searchLines_closes le_rfl hm, List.append_nil]
      | succ diff =>
        rw [searchLines_closes_block le_rfl he hm, Core.firstClose_succ k diff (by simp [hm])]
        exact (next diff mids).skip (by simp [hm]) (by simp [hm])

/-- the end alone -/
theorem searchLines_spec (he : d.endBlocks = d.ends) (k line diff : ℕ) (mids : List ℕ) :
    match firstClose (d.seen commands) k line diff with
    | some e => ∃ ms, searchLines commands d true k line line diff mids = .ok (some (e, ms))
    | none => ∃ text, searchLines commands d true k line line diff mids = .error text := by
  have h := @searchLines_collects commands d he k line diff mids
  cases hf : firstClose (d.seen commands) k line diff with
  | none => rwa [hf] at h
  | some e =>
    rw [hf] at h
    obtain ⟨ms, _, hms⟩ := h
    exact ⟨mids ++ ms, hms⟩

/-- a whole search, from the line after the opening one -/
theorem commandSearch_spec (commands : List CommandPrototype) (hs : d.starts ≠ []) (hn : d.ends ≠ [])
    (he : d.endBlocks = d.ends) (start : ℕ) :
    match firstClose (d.seen commands) (commands.length - start) start 0 with
    | some e => ∃ ms, commandSearch commands start d true = .ok (some (e, ms))
    | none => ∃ text, commandSearch commands start d true = .error text := by
  rw [commandSearch, if_neg hs, if_neg hn]
  exact searchLines_spec he (commands.length - start) start 0 []

end

/-! ## The dividing lines found -/

/-- how a search that sees every line as it is goes over a nest: past a sequence and past a block that is not divided,
and to the end of one that is, with the lines that divide it -/
def Scanned (commands : List CommandPrototype) (d : Defs) : Part → ℕ → List ℕ → ℕ → Prop
  | .seq, a, _, b => ∀ k diff mids, searchLines commands d true (b - a + k) a a diff mids =
      searchLines commands d true k b b diff mids
  | .arms false, a, _, e => ∀ k diff mids, searchLines commands d true (e + 1 - a + k) a a (diff + 1) mids =
      searchLines commands d true k (e + 1) (e + 1) diff mids
  | .arms true, a, ms, e => ∀ k mids, searchLines commands d true (e + 1 - a + k) a a 0 mids =
      .ok (some (e, mids ++ ms))

variable {commands : List CommandPrototype} {d : Defs}

/-- **Dividing lines.** A search that sees every line of a nest as it is goes over it as the blocks are. -/
theorem searchLines_nest (he : d.endBlocks = d.ends)
    (hc : ∀ m, mark commands m = .closes → d.seen commands m = .closes) {p : Part} {a b : ℕ} {ms : List ℕ}
    (h : Nest (mark commands) p a ms b) (hsee : ∀ m, a ≤ m → m < b → d.seen commands m = mark commands m) :
    Scanned commands d p a ms b := by
  induction h with
  | nil a =>
    intro k diff mids
    rw [Nat.sub_self, Nat.zero_add]
  | @plain a b hm hn ih =>
    intro k diff mids
    have hab := hn.le
    have ih := ih fun m h₁ h₂ => hsee m (by omega) h₂
    rw [show b - a + k = (b - (a + 1) + k) + 1 by omega,
      searchLines_plain le_rfl he ((hsee a le_rfl hab).trans hm),
      searchLines_skipTo_irrel he (Nat.le_succ a) (le_refl (a + 1))]
    exact ih k diff mids
  | @block f a e b ms hm hn₁ hn₂ ih₁ ih₂ =>
    intro k diff mids
    have hae := hn₁.le
    have heb := hn₂.le
    have ih₁ := ih₁ fun m h₁ h₂ => hsee m (by omega) (by omega)
    have ih₂ := ih₂ fun m h₁ h₂ => hsee m (by omega) h₂
    have hseen : d.seen commands a = .opens f := (hsee a le_rfl (by omega)).trans hm
    rw [show b - a + k = (e + 1 - (a + 1) + (b - (e + 1) + k)) + 1 by omega]
    cases f with
    | false =>
      rw [searchLines_block le_rfl hseen, searchLines_skipTo_irrel he (Nat.le_succ a) (le_refl (a + 1)), ih₁]
      exact ih₂ k diff mids
    | true =>
      rw [searchLines_own le_rfl he hseen (ih₁ _ []), searchLines_past (by omega) (by omega),
        show a + 1 + (e + 1 - (a + 1) + (b - (e + 1) + k)) - (e + 1) = b - (e + 1) + k by omega]
      exact ih₂ k diff mids
  | @close a e f hn hm ih =>
    have hae := hn.le
    have ih := ih fun m h₁ h₂ => hsee m h₁ h₂
    cases f with
    | false =>
      intro k diff mids
      rw [show e + 1 - a + k = e - a + (k + 1) by omega, ih,
        searchLines_closes_block le_rfl he (hc e hm), searchLines_skipTo_irrel he (Nat.le_succ e) (le_refl (e + 1))]
    | true =>
      intro k mids
      rw [show e + 1 - a + k = e - a + (k + 1) by omega, ih, searchLines_closes le_rfl (hc e hm), List.append_nil]
  | @middle a m e ms hn₁ hm hn₂ ih₁ ih₂ =>
    intro k mids
    have ham := hn₁.le
    have hme := hn₂.le
    have ih₁ := ih₁ fun m' h₁ h₂ => hsee m' h₁ (by omega)
    have ih₂ := ih₂ fun m' h₁ h₂ => hsee m' (by omega) h₂
    rw [show e + 1 - a + k = m - a + ((e + 1 - (m + 1) + k) + 1) by omega, ih₁,
      searchLines_middle le_rfl ((hsee m ham hme).trans hm),
      searchLines_skipTo_irrel he (Nat.le_succ m) (le_refl (m + 1)), ih₂, List.append_assoc]
    rfl

end BigWorlds.Machine
