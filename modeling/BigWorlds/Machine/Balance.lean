/-
The call stack across a block (`machine/cmd/flow/end.rs`, `ifelse.rs`, `_loop.rs`, `machine/exec.rs`).

`end` pops whatever call or component is on top, whichever block it closes, and it pops neither the frame of an `if` nor
that of a loop. `for` and machine blocks push nothing, so their `end` takes the frame of the block around them; an `if`
that pushed its frame leaves it there for good.

- `Balanced`: the step does none of this. An `if` is false and has no `else`, `end` pops a call or a component only on
  the line where it ends, and what is jumped over or called records its own lines;
- `Nested`: then the frames are those of blocks that contain the current line, one inside the other;
- `stack_balance`: in every run of balanced steps the stack after a block is the stack before it, and a procedure finds
  its own frame on top at its end;
- `if_leaves_frame`: an `if` that was true, in a procedure: the procedure does not return.
-/
import BigWorlds.Machine.Branches

namespace BigWorlds.Machine.Balance

open BigWorlds.Core (Mark Part Nest Block run run_nil run_cons run_inv Along)
open Branches (Within Closed closed_of_nest quietWorld)

/-! ## Balanced steps -/

/-- the block that the frame belongs to ends on line `n`; for a loop this does not matter -/
def EndsAt (n : ℕ) : CallInfo → Prop
  | .procedure ci => ci.endLine = n
  | .component ci => ci.endLine = n
  | _ => True

/-- what a step may do:
- an `if` is not true and has no `else`;
- blocks that are jumped over or pushed record their own lines, and so does a procedure that is called;
- `end` has on top no call and no component but the one that ends here -/
def Balanced (s : Script) (c : Config) (w : World) : Prop :=
  match s.logic.commands[c.line]? with
  | some (.if_ cmd) => RecordsOwn s.protos c.line (.if_ cmd) ∧ cmd.condition.evaluate w ≠ some true ∧ cmd.elseLines = []
  | some (.procedure cmd) => RecordsOwn s.protos c.line (.procedure cmd)
  | some (.state cmd) => RecordsOwn s.protos c.line (.state cmd)
  | some (.component cmd) => RecordsOwn s.protos c.line (.component cmd)
  | some (.call cmd) => ∀ lines, s.logic.procedures.lookup cmd.procName = some lines →
      ∃ ms, Block (mark s.protos) lines.1 ms lines.2
  | some .end_ => ∀ f ∈ c.stack.head?, EndsAt c.line f
  | _ => True

/-- the number of calls on the stack -/
def calls (stack : List CallInfo) : ℕ := stack.countP fun
  | .procedure _ => true
  | _ => false

@[simp] theorem calls_append (pre B : List CallInfo) : calls (pre ++ B) = calls pre + calls B := List.countP_append

/-! ## Frames of nested blocks -/

/-- frames pushed since control entered the region `r`, each for a block inside the region of those below; the last
index is the region that control is in now -/
inductive Frames (protos : List CommandPrototype) (r : ℕ × ℕ) : List CallInfo → ℕ × ℕ → Prop
  | nil : Frames protos r [] r
  | procedure {ci : ProcedureCallInfo} {pre : List CallInfo} {r' : ℕ × ℕ} {ms : List ℕ} : Frames protos r pre r' →
      Block (mark protos) ci.startLine ms ci.endLine → Within r' (ci.callLine + 1) →
      Frames protos r (.procedure ci :: pre) (ci.startLine + 1, ci.endLine)
  | component {ci : ComponentCallInfo} {pre : List CallInfo} {r' : ℕ × ℕ} {n : ℕ} {ms : List ℕ} :
      Frames protos r pre r' → Block (mark protos) n ms ci.endLine → r'.1 ≤ n → ci.endLine < r'.2 →
      Frames protos r (.component ci :: pre) (n + 1, ci.endLine)
  | loop {ci : LoopCallInfo} {pre : List CallInfo} {r' : ℕ × ℕ} {ms : List ℕ} {e : ℕ} : Frames protos r pre r' →
      Block (mark protos) ci.start ms e → r'.1 ≤ ci.start → e < r'.2 →
      Frames protos r (.loop ci :: pre) (ci.start + 1, e)

section
variable {protos : List CommandPrototype} {r r' : ℕ × ℕ} {pre : List CallInfo}

theorem closed_of_block {n e : ℕ} {ms : List ℕ} (h : Block (mark protos) n ms e) :
    Closed protos (n + 1, e) ∧ mark protos e = .closes ∧ n + 1 ≤ e := by
  obtain ⟨f, _, hn⟩ := h
  exact ⟨closed_of_nest hn, hn.closes_end (by simp), hn.le⟩

theorem Frames.closed (h : Frames protos r pre r') (hr : Closed protos r) : Closed protos r' := by
  cases h with
  | nil => exact hr
  | procedure _ hb _ => exact (closed_of_block hb).1
  | component _ hb _ _ => exact (closed_of_block hb).1
  | loop _ hb _ _ => exact (closed_of_block hb).1

/-- without a call among them, frames lead deeper into the region -/
theorem Frames.shrink (h : Frames protos r pre r') (hc : calls pre = 0) :
    r.1 ≤ r'.1 ∧ (pre = [] ∧ r' = r ∨ r'.2 < r.2) := by
  induction h with
  | nil => exact ⟨le_rfl, Or.inl ⟨rfl, rfl⟩⟩
  | procedure _ _ _ _ => exact absurd hc (by simp [calls])
  | component _ _ h₁ h₂ ih | loop _ _ h₁ h₂ ih =>
    obtain ⟨h₃, h₄⟩ := ih (by simpa [calls] using hc)
    refine ⟨by simp only; omega, Or.inr ?_⟩
    rcases h₄ with ⟨_, rfl⟩ | h₄
    · exact h₂
    · exact Nat.lt_trans h₂ h₄

end

/-! ## The step -/

/-- the frames since the stack was `B` are those of nested blocks in `r`, and control is in the innermost -/
structure Nested (s : Script) (r : ℕ × ℕ) (B : List CallInfo) (c : Config) (pre : List CallInfo) (r' : ℕ × ℕ) :
    Prop where
  stack : c.stack = pre ++ B
  frames : Frames s.protos r pre r'
  line : Within r' c.line

/-- `B'` is `B`, or has more variables in the component on top -/
def Revised (B B' : List CallInfo) : Prop :=
  B' = B ∨ ∃ ci vars rest, B = .component ci :: rest ∧ B' = .component { ci with vars := vars } :: rest

/-- what the region starts on top of: the block of the frame on top does not end inside the region -/
def Base (r : ℕ × ℕ) (B : List CallInfo) : Prop :=
  match B with
  | [] => True
  | .procedure ci :: _ => r.2 ≤ ci.endLine
  | .component ci :: _ => r.2 ≤ ci.endLine
  | .loop _ :: _ => True
  | .ifElse _ :: _ | .forIn _ :: _ => False

variable {s : Script} {stop : ℕ} {r r' : ℕ × ℕ} {B pre : List CallInfo} {c : Config} {w : World}

/-- what a step inside the region comes to: it stays inside, or the loop that the region is in begins anew -/
def Goes (s : Script) (r : ℕ × ℕ) (B : List CallInfo) (c : Config) : Prop :=
  (∃ B' pre' r'', Revised B B' ∧ Nested s r B' c pre' r'') ∨
    ∃ ci rest, B = .loop ci :: rest ∧ c.line = ci.start + 1 ∧ c.stack = B

/-- `end` on the last line of the innermost region closes the block of the frame on top -/
theorem Nested.end_last (h : Nested s r B c pre r') (hpre : pre ≠ []) (hlast : c.line = r'.2)
    {command : Command} (hc : s.logic.commands[c.line]? = some command) {result : CommandResult}
    {stack : List CallInfo}
    (he : command.execute s.logic w (s.logic.location c.line) c.stack = some (result, stack)) :
    Goes s r B ⟨nextLine c.line result, stack, false⟩ := by
  obtain ⟨hstack, hframes, hline⟩ := h
  rw [hstack] at he
  cases hframes with
  | nil => exact absurd rfl hpre
  | procedure hf hb hw =>
    obtain rfl := Script.end_of_closes hc (hlast ▸ (closed_of_block hb).2.1)
    obtain ⟨rfl, rfl⟩ := End.execute_procedure (Script.location_line hc) he
    rw [if_pos hlast.symm]
    exact Or.inl ⟨B, _, _, Or.inl rfl, rfl, hf, hw⟩
  | component hf hb h₁ h₂ =>
    obtain rfl := Script.end_of_closes hc (hlast ▸ (closed_of_block hb).2.1)
    obtain ⟨rfl, rfl⟩ := Prod.mk.inj (Option.some.inj he)
    have hle := (closed_of_block hb).2.2
    refine Or.inl ⟨B, _, _, Or.inl rfl, rfl, hf, ?_⟩
    simp only [nextLine, Within]
    simp only at hlast
    omega
  | loop hf hb h₁ h₂ =>
    obtain rfl := Script.end_of_closes hc (hlast ▸ (closed_of_block hb).2.1)
    obtain ⟨rfl, rfl⟩ := Prod.mk.inj (Option.some.inj he)
    exact Or.inl ⟨B, _, _, Or.inl rfl, rfl, .loop hf hb h₁ h₂, le_rfl, (closed_of_block hb).2.2⟩

/-- `end` on another line closes a block that has no frame -/
theorem Nested.end_within (h : Nested s r B c pre r') (hB : Base r B) (hlt : c.line < r'.2) (hbal : Balanced s c w)
    (hc : s.logic.commands[c.line]? = some .end_) {result : CommandResult} {stack : List CallInfo}
    (he : End.execute (s.logic.location c.line) c.stack = some (result, stack)) :
    Goes s r B ⟨nextLine c.line result, stack, false⟩ := by
  have hown : ∀ f ∈ c.stack.head?, EndsAt c.line f := by simpa only [Balanced, hc] using hbal
  obtain ⟨hstack, hframes, hline⟩ := h
  have hnext : Within r' (c.line + 1) := ⟨Nat.le_succ_of_le hline.1, hlt⟩
  rw [hstack] at he hown
  cases hframes with
  | nil =>
    cases B with
    | nil =>
      obtain ⟨rfl, rfl⟩ := Prod.mk.inj (Option.some.inj he)
      exact Or.inl ⟨[], [], _, Or.inl rfl, rfl, .nil, hnext⟩
    | cons f rest =>
      cases f with
      | procedure ci | component ci =>
        have : ci.endLine = c.line := hown _ rfl
        exact absurd hlt (by simp only [Base] at hB; omega)
      | loop ci =>
        obtain ⟨rfl, rfl⟩ := Prod.mk.inj (Option.some.inj he)
        exact Or.inr ⟨ci, rest, rfl, rfl, rfl⟩
      | ifElse ci | forIn ci => exact hB.elim
  | @procedure ci _ _ _ hf hb hw =>
    have : ci.endLine = c.line := hown _ rfl
    exact absurd hlt (by simp only; omega)
  | @component ci _ _ _ _ hf hb h₁ h₂ =>
    have : ci.endLine = c.line := hown _ rfl
    exact absurd hlt (by simp only; omega)
  | loop hf hb h₁ h₂ =>
    obtain ⟨rfl, rfl⟩ := Prod.mk.inj (Option.some.inj he)
    exact Or.inl ⟨B, _, _, Or.inl rfl, rfl, .loop hf hb h₁ h₂, le_rfl, (closed_of_block hb).2.2⟩

/-- a variable changes the component on top and nothing else -/
theorem Nested.registerVar (h : Nested s r B c pre r') (var : VarModel) {n : ℕ} (hn : Within r' n) :
    Goes s r B ⟨n, RegisterVar.execute var c.stack, false⟩ := by
  obtain ⟨hstack, hframes, _⟩ := h
  rw [hstack]
  cases hframes with
  | nil =>
    cases B with
    | nil => exact Or.inl ⟨_, [], _, Or.inl rfl, rfl, .nil, hn⟩
    | cons f rest =>
      cases f with
      | component ci => exact Or.inl ⟨_, [], _, Or.inr ⟨ci, ci.vars ++ [var], rest, rfl, rfl⟩, rfl, .nil, hn⟩
      | procedure _ | loop _ | ifElse _ | forIn _ => exact Or.inl ⟨_, [], _, Or.inl rfl, rfl, .nil, hn⟩
  | procedure hf hb hw => exact Or.inl ⟨B, _, _, Or.inl rfl, rfl, .procedure hf hb hw, hn⟩
  | @component ci pre _ _ _ hf hb h₁ h₂ =>
    exact Or.inl ⟨B, .component { ci with vars := ci.vars ++ [var] } :: pre, _, Or.inl rfl, rfl,
      .component hf hb h₁ h₂, hn⟩
  | loop hf hb h₁ h₂ => exact Or.inl ⟨B, _, _, Or.inl rfl, rfl, .loop hf hb h₁ h₂, hn⟩

/-- a command other than `end` -/
theorem Nested.command (h : Nested s r B c pre r') (hr : Closed s.protos r) (hlt : c.line < r'.2)
    (hbal : Balanced s c w) {command : Command} (hc : s.logic.commands[c.line]? = some command)
    (hend : command ≠ .end_) {result : CommandResult} {stack : List CallInfo}
    (he : command.execute s.logic w (s.logic.location c.line) c.stack = some (result, stack)) :
    Goes s r B ⟨nextLine c.line result, stack, false⟩ := by
  have hnext : Within r' (c.line + 1) := ⟨Nat.le_succ_of_le h.line.1, hlt⟩
  -- a block that opens here ends before the region does
  have hblock : ∀ {ms e}, Block (mark s.protos) c.line ms e → e < r'.2 ∧ Within r' (e + 1) := by
    intro ms e hb
    have hin := h.frames.closed hr _ ms e h.line.1 hlt hb
    have := (closed_of_block hb).2.2
    have := h.line.1
    exact ⟨hin, by omega, hin⟩
  have stay : ∀ {n}, Within r' n → Goes s r B ⟨n, c.stack, false⟩ := fun hn =>
    Or.inl ⟨B, pre, r', Or.inl rfl, h.stack, h.frames, hn⟩
  cases command with
  | end_ => exact absurd rfl hend
  | oneLine cmd =>
    obtain ⟨err, _, heq⟩ := Option.map_eq_some_iff.mp he
    obtain ⟨rfl, rfl⟩ := Prod.mk.inj heq
    have hline : nextLine c.line (if err then .err else .continue_) = c.line + 1 := by cases err <;> rfl
    rw [hline]
    exact stay hnext
  | registerVar var =>
    obtain ⟨rfl, rfl⟩ := Prod.mk.inj (Option.some.inj he)
    exact h.registerVar var hnext
  | else_ | forIn cmd | break_ | machine cmd =>
    obtain ⟨rfl, rfl⟩ := Prod.mk.inj (Option.some.inj he)
    exact stay hnext
  | procedure cmd =>
    have hown : RecordsOwn s.protos c.line (.procedure cmd) := by simpa only [Balanced, hc] using hbal
    obtain ⟨ms, e, hb, hrec⟩ := hown rfl
    obtain ⟨rfl, rfl⟩ := Prod.mk.inj (Option.some.inj he)
    obtain rfl : cmd.endLine = e := hrec
    exact stay (hblock hb).2
  | state cmd =>
    have hown : RecordsOwn s.protos c.line (.state cmd) := by simpa only [Balanced, hc] using hbal
    obtain ⟨ms, e, hb, hrec⟩ := hown rfl
    obtain ⟨rfl, rfl⟩ := Prod.mk.inj (Option.some.inj he)
    obtain rfl : cmd.endLine = e := hrec
    exact stay (hblock hb).2
  | component cmd =>
    have hown : RecordsOwn s.protos c.line (.component cmd) := by simpa only [Balanced, hc] using hbal
    obtain ⟨ms, e, hb, hrec⟩ := hown rfl
    obtain ⟨rfl, rfl⟩ := ComponentBlock.execute_cases he
    obtain rfl : cmd.endLine = e := hrec
    refine Or.inl ⟨B, .component ⟨cmd.name, [], cmd.startLine, cmd.endLine⟩ :: pre, (c.line + 1, cmd.endLine),
      Or.inl rfl, by rw [h.stack]; rfl, .component h.frames hb h.line.1 (hblock hb).1, ?_⟩
    exact (⟨le_rfl, (closed_of_block hb).2.2⟩ : Within (c.line + 1, cmd.endLine) (c.line + 1))
  | loop cmd =>
    obtain ⟨rfl, rfl⟩ := Loop.execute_cases he
    have hstart : cmd.start = c.line := Script.standsAt hc
    obtain ⟨ms, e, hb⟩ := Script.block_of_opens hc rfl
    refine Or.inl ⟨B, .loop ⟨cmd.start, cmd.end_⟩ :: pre, (cmd.start + 1, e), Or.inl rfl, by rw [h.stack]; rfl, ?_, ?_⟩
    · exact .loop h.frames (hstart ▸ hb) (hstart ▸ h.line.1) (hblock hb).1
    · rw [hstart]
      exact (⟨le_rfl, (closed_of_block hb).2.2⟩ : Within (c.line + 1, e) (c.line + 1))
  | call cmd =>
    obtain ⟨lines, hl, rfl, rfl⟩ := Call.execute_cases (Script.location_line hc) he
    have hown : ∀ lines, s.logic.procedures.lookup cmd.procName = some lines →
        ∃ ms, Block (mark s.protos) lines.1 ms lines.2 := by simpa only [Balanced, hc] using hbal
    obtain ⟨ms, hb⟩ := hown lines hl
    refine Or.inl ⟨B, .procedure ⟨c.line, lines.1, lines.2⟩ :: pre, (lines.1 + 1, lines.2), Or.inl rfl,
      by rw [h.stack]; rfl, .procedure h.frames hb hnext, ?_⟩
    exact (⟨le_rfl, (closed_of_block hb).2.2⟩ : Within (lines.1 + 1, lines.2) (lines.1 + 1))
  | if_ cmd =>
    obtain ⟨hown, hfalse, hnil⟩ : RecordsOwn s.protos c.line (.if_ cmd) ∧
        cmd.condition.evaluate w ≠ some true ∧ cmd.elseLines = [] := by simpa only [Balanced, hc] using hbal
    obtain ⟨ms, e, hb, hrec⟩ := hown rfl
    obtain ⟨rfl, rfl⟩ : cmd.end_ = e ∧ cmd.elseLines = ms := hrec
    obtain ⟨arr, _, hcases⟩ := If.execute_cases he
    rcases hcases with ⟨hv, _⟩ | ⟨_, _, rfl, rfl⟩ | ⟨m, _, hm, _⟩
    · exact absurd hv hfalse
    · exact stay (hblock hb).2
    · rw [hnil] at hm
      exact absurd hm (by simp)

/-- **The step lemma.** A balanced step inside a region, other than on its last line, stays among nested blocks. -/
theorem nested_step (stop : ℕ) (h : Nested s r B c pre r') (hr : Closed s.protos r) (hB : Base r B) (hbal : Balanced s c w)
    (hin : pre ≠ [] ∨ c.line < r.2) : Goes s r B (step s.logic stop c w) := by
  rcases step_cases s.logic stop c w with heq | ⟨command, result, stack, _, hc, he, heq⟩
  · rw [heq]
    exact Or.inl ⟨B, pre, r', Or.inl rfl, h.stack, h.frames, h.line⟩
  · rw [heq]
    rcases Nat.lt_or_ge c.line r'.2 with hlt | hge
    · by_cases hend : command = .end_
      · subst hend
        exact h.end_within hB hlt hbal hc he
      · exact h.command hr hlt hbal hc hend he
    · have hlast := Nat.le_antisymm h.line.2 hge
      refine h.end_last ?_ hlast hc he
      rintro rfl
      rcases hin with hne | hlt
      · exact hne rfl
      · cases h.frames with
        | nil => omega

/-! ## The whole stack -/

/-- where control can be: on a line of the list, or where the execution was started -/
def whole (s : Script) (start : ℕ) : ℕ × ℕ := (0, max start s.protos.length)

theorem closed_whole (s : Script) (start : ℕ) : Closed s.protos (whole s start) := by
  intro n ms e _ _ hb
  have hm := (closed_of_block hb).2.1
  have hlt : e < s.protos.length := by
    by_contra hge
    have hnone : s.protos[e]? = none := List.getElem?_eq_none_iff.mpr (Nat.le_of_not_lt hge)
    simp [mark, nameAt, hnone] at hm
  exact Nat.lt_of_lt_of_le hlt (Nat.le_max_right _ _)

/-- all frames on the stack are those of nested blocks, and control is in the innermost -/
def Framed (s : Script) (start : ℕ) (c : Config) : Prop :=
  ∃ r', Nested s (whole s start) [] c c.stack r'

variable {start : ℕ}

theorem framed_start (s : Script) (start : ℕ) : Framed s start (Config.start start) :=
  ⟨_, rfl, .nil, Nat.zero_le _, Nat.le_max_left _ _⟩

theorem framed_step (h : Framed s start c) (hbal : Balanced s c w) : Framed s start (step s.logic stop c w) := by
  obtain ⟨r', hn⟩ := h
  rcases step_cases s.logic stop c w with heq | ⟨command, _, _, _, hc, _, _⟩
  · rw [heq]
    exact ⟨r', hn.stack, hn.frames, hn.line⟩
  · have hlt : c.line < (whole s start).2 := Nat.lt_of_lt_of_le (Script.line_lt hc) (Nat.le_max_right _ _)
    rcases nested_step stop hn (closed_whole s start) trivial hbal (Or.inr hlt) with ⟨B', pre', r'', hrev, hn'⟩ | hloop
    · obtain rfl : B' = [] := by
        rcases hrev with hrev | ⟨_, _, _, hrev, _⟩
        · exact hrev
        · exact absurd hrev (by simp)
      obtain rfl : (step s.logic stop c w).stack = pre' := hn'.stack.trans (List.append_nil _)
      exact ⟨r'', hn'⟩
    · obtain ⟨_, _, hnil, _⟩ := hloop
      exact absurd hnil (by simp)

/-- the block of the frame on top is around the one from line `n` to `e` -/
def Around (n e : ℕ) : List CallInfo → Prop
  | [] => True
  | .procedure ci :: _ => e < ci.endLine
  | .component ci :: _ => e < ci.endLine
  | .loop ci :: _ => ci.start < n
  | .ifElse _ :: _ | .forIn _ :: _ => False

theorem Framed.around (h : Framed s start c) {ms : List ℕ} {e : ℕ} (hb : Block (mark s.protos) c.line ms e) :
    Around c.line e c.stack := by
  obtain ⟨r', _, hframes, hline⟩ := h
  have hclosed := hframes.closed (closed_whole s start)
  have hopen := hb
  obtain ⟨f, hf, _⟩ := hopen
  -- control is not on the closing line of a block
  have inside : ∀ {n ms}, Block (mark s.protos) n ms r'.2 → e < r'.2 := fun hb' => by
    refine hclosed _ ms e hline.1 (lt_of_le_of_ne hline.2 ?_) hb
    intro heq
    exact absurd ((heq ▸ hf).symm.trans (closed_of_block hb').2.1) (by simp)
  generalize c.stack = K at hframes ⊢
  cases hframes with
  | nil => trivial
  | procedure _ hb' _ => exact inside hb'
  | component _ hb' _ _ => exact inside hb'
  | loop _ hb' _ _ => exact hline.1

/-! ## A block that is entered -/

/-- control is on the lines after `n` up to `e` with no call made since the stack was `K`, or in a procedure called
from there -/
def Stays (K : List CallInfo) (n e : ℕ) (c : Config) : Prop :=
  calls K ≤ calls c.stack ∧ (calls c.stack = calls K → n < c.line ∧ c.line ≤ e)

/-- control is at line `n` with no call made since the stack was `K` -/
def Reaches (K : List CallInfo) (n : ℕ) (c : Config) : Prop := c.line = n ∧ calls c.stack = calls K

/-- the stack in the block from line `n` to `e` entered with `K`: the frame of a component or of a loop is on top, or
no frame of the block -/
inductive Entered (K : List CallInfo) (n e : ℕ) : List CallInfo → Prop
  | component (ci : ComponentCallInfo) : ci.endLine = e → Entered K n e (.component ci :: K)
  | loop (ci : LoopCallInfo) : ci.start = n → Entered K n e (.loop ci :: K)
  | bare {B : List CallInfo} : Revised K B → Entered K n e B

section
variable {K B' : List CallInfo} {n e : ℕ}

theorem Revised.trans {B'' : List CallInfo} (h : Revised B B') (h' : Revised B' B'') : Revised B B'' := by
  rcases h with rfl | ⟨ci, vars, rest, rfl, rfl⟩
  · exact h'
  · rcases h' with rfl | ⟨ci', vars', rest', heq, rfl⟩
    · exact Or.inr ⟨ci, vars, rest, rfl, rfl⟩
    · obtain ⟨hci, rfl⟩ := List.cons.inj heq
      obtain rfl := CallInfo.component.inj hci
      exact Or.inr ⟨ci, vars', rest, rfl, rfl⟩

theorem Revised.calls (h : Revised B B') : calls B' = calls B := by
  rcases h with rfl | ⟨ci, vars, rest, rfl, rfl⟩
  · rfl
  · simp [Balance.calls]

theorem Revised.base (h : Revised B B') (hB : Base r B) : Base r B' := by
  rcases h with rfl | ⟨ci, vars, rest, rfl, rfl⟩
  · exact hB
  · exact hB

theorem Entered.revised (h : Entered K n e B) (hrev : Revised B B') : Entered K n e B' := by
  cases h with
  | component ci he =>
    rcases hrev with rfl | ⟨ci', vars, rest, heq, rfl⟩
    · exact .component ci he
    · obtain ⟨hci, rfl⟩ := List.cons.inj heq
      obtain rfl := CallInfo.component.inj hci
      exact .component _ he
  | loop ci hn =>
    rcases hrev with rfl | ⟨ci', vars, rest, heq, _⟩
    · exact .loop ci hn
    · exact absurd (List.cons.inj heq).1 (by simp)
  | bare h => exact .bare (h.trans hrev)

theorem Entered.calls (h : Entered K n e B) : calls B = calls K := by
  cases h with
  | component ci _ => simp [Balance.calls]
  | loop ci _ => simp [Balance.calls]
  | bare h => exact h.calls

theorem Around.base (h : Around n e K) : Base (n + 1, e) K := by
  cases K with
  | nil => trivial
  | cons f rest =>
    cases f with
    | procedure ci | component ci => exact Nat.le_of_lt h
    | loop ci => trivial
    | ifElse ci | forIn ci => exact h.elim

theorem Entered.base (h : Entered K n e B) (ha : Around n e K) : Base (n + 1, e) B := by
  cases h with
  | component ci he => exact he.ge
  | loop ci _ => trivial
  | bare h => exact h.base ha.base

/-- what can have become of a block entered with `K`: control is inside, has just left it, or has gone back to a loop
around it -/
inductive Progress (s : Script) (K : List CallInfo) (n e : ℕ) (c : Config) : Prop
  | inside {B pre : List CallInfo} {r' : ℕ × ℕ} : Entered K n e B → Nested s (n + 1, e) B c pre r' →
      Progress s K n e c
  | left : c.stack = K → c.line = e + 1 → Progress s K n e c
  | back : calls c.stack = calls K → c.line ≤ n → Progress s K n e c

/-- the `end` of the block takes the block's own frame, or goes back to a loop -/
theorem Progress.at_end (hE : Entered K n e B) (ha : Around n e K) (hn : n < e) (hstack : c.stack = B)
    (hline : c.line = e) (hbal : Balanced s c w) (hc : s.logic.commands[c.line]? = some .end_)
    {result : CommandResult} {stack : List CallInfo}
    (he : End.execute (s.logic.location c.line) c.stack = some (result, stack)) :
    Progress s K n e ⟨nextLine c.line result, stack, false⟩ := by
  have hown : ∀ f ∈ c.stack.head?, EndsAt c.line f := by simpa only [Balanced, hc] using hbal
  rw [hstack] at he hown
  cases hE with
  | component ci _ =>
    obtain ⟨rfl, rfl⟩ := Prod.mk.inj (Option.some.inj he)
    exact .left rfl (congrArg (· + 1) hline)
  | loop ci hstart =>
    obtain ⟨rfl, rfl⟩ := Prod.mk.inj (Option.some.inj he)
    refine .inside (.loop ci hstart) ⟨rfl, .nil, ?_⟩
    simp only [nextLine, Within]
    omega
  | bare hrev =>
    rcases hrev with rfl | ⟨ci, vars, rest, rfl, rfl⟩
    · cases B with
      | nil =>
        obtain ⟨rfl, rfl⟩ := Prod.mk.inj (Option.some.inj he)
        exact .left rfl (congrArg (· + 1) hline)
      | cons f rest =>
        cases f with
        | procedure ci | component ci =>
          have : ci.endLine = c.line := hown _ rfl
          exact absurd ha (by simp only [Around]; omega)
        | loop ci =>
          obtain ⟨rfl, rfl⟩ := Prod.mk.inj (Option.some.inj he)
          exact .back rfl ha
        | ifElse ci | forIn ci => exact ha.elim
    · have : ci.endLine = c.line := hown _ rfl
      exact absurd ha (by simp only [Around]; omega)

theorem Progress.step_inside (hE : Entered K n e B) (h : Nested s (n + 1, e) B c pre r') {ms : List ℕ}
    (hb : Block (mark s.protos) n ms e) (ha : Around n e K) (hbal : Balanced s c w) :
    Progress s K n e (step s.logic stop c w) := by
  obtain ⟨hclosed, hcloses, hle⟩ := closed_of_block hb
  by_cases hin : pre ≠ [] ∨ c.line < e
  · rcases nested_step stop h hclosed (hE.base ha) hbal hin with
      ⟨B', pre', r'', hrev, h'⟩ | ⟨ci, rest, rfl, hline, hstack⟩
    · exact .inside (hE.revised hrev) h'
    · cases hE with
      | loop _ hstart => exact .inside (.loop ci hstart) ⟨hstack, .nil, by simp only [Within]; omega⟩
      | bare hrev =>
        rcases hrev with rfl | ⟨_, _, _, _, heq⟩
        · refine .back (by rw [hstack]) ?_
          have : ci.start < n := ha
          omega
        · exact absurd (List.cons.inj heq).1 (by simp)
  · push Not at hin
    obtain ⟨rfl, hge⟩ := hin
    obtain ⟨hstack, hframes, hline⟩ := h
    cases hframes
    have hlast : c.line = e := Nat.le_antisymm hline.2 hge
    rcases step_cases s.logic stop c w with heq | ⟨command, result, stack, _, hc, he, heq⟩
    · rw [heq]
      exact .inside hE ⟨hstack, .nil, hline⟩
    · obtain rfl := Script.end_of_closes hc (hlast ▸ hcloses)
      rw [heq]
      exact .at_end hE ha hle hstack hlast hbal hc he

/-- the step that enters the block -/
theorem Progress.enter {ms : List ℕ} (hb : Block (mark s.protos) c.line ms e)
    (hbal : Balanced s c w) : Progress s c.stack c.line e (step s.logic stop c w) := by
  obtain ⟨_, _, hle⟩ := closed_of_block hb
  have hwithin : Within (c.line + 1, e) (c.line + 1) := ⟨le_rfl, hle⟩
  rcases step_cases s.logic stop c w with heq | ⟨command, result, stack, _, hc, he, heq⟩
  · rw [heq]
    exact .back rfl le_rfl
  · rw [heq]
    have hopen := hb
    obtain ⟨f, hf, _⟩ := hopen
    have hmark : command.mark = .opens f := (Script.mark_command hc).symm.trans hf
    have own : ∀ {ms' e'}, Block (mark s.protos) c.line ms' e' → ms' = ms ∧ e' = e := fun hb' => by
      obtain ⟨rfl, rfl⟩ := block_unique hb' hb
      exact ⟨rfl, rfl⟩
    cases command with
    | oneLine cmd => exact absurd hmark (by simp [Command.mark])
    | registerVar _ => exact absurd hmark (by simp [Command.mark])
    | call cmd => exact absurd hmark (by simp [Command.mark])
    | break_ => exact absurd hmark (by simp [Command.mark])
    | else_ => exact absurd hmark (by simp [Command.mark])
    | end_ => exact absurd hmark (by simp [Command.mark])
    | forIn cmd =>
      obtain ⟨rfl, rfl⟩ := Prod.mk.inj (Option.some.inj he)
      exact .inside (.bare (Or.inl rfl)) ⟨rfl, .nil, hwithin⟩
    | machine cmd =>
      obtain ⟨rfl, rfl⟩ := Prod.mk.inj (Option.some.inj he)
      exact .inside (.bare (Or.inl rfl)) ⟨rfl, .nil, hwithin⟩
    | procedure cmd =>
      have hrec : RecordsOwn s.protos c.line (.procedure cmd) := by simpa only [Balanced, hc] using hbal
      obtain ⟨ms', e', hb', hrec⟩ := hrec rfl
      obtain ⟨rfl, rfl⟩ := own hb'
      obtain ⟨rfl, rfl⟩ := Prod.mk.inj (Option.some.inj he)
      exact .left rfl (congrArg (· + 1) hrec)
    | state cmd =>
      have hrec : RecordsOwn s.protos c.line (.state cmd) := by simpa only [Balanced, hc] using hbal
      obtain ⟨ms', e', hb', hrec⟩ := hrec rfl
      obtain ⟨rfl, rfl⟩ := own hb'
      obtain ⟨rfl, rfl⟩ := Prod.mk.inj (Option.some.inj he)
      exact .left rfl (congrArg (· + 1) hrec)
    | component cmd =>
      have hrec : RecordsOwn s.protos c.line (.component cmd) := by simpa only [Balanced, hc] using hbal
      obtain ⟨ms', e', hb', hrec⟩ := hrec rfl
      obtain ⟨rfl, rfl⟩ := own hb'
      obtain ⟨rfl, rfl⟩ := ComponentBlock.execute_cases he
      exact .inside (.component ⟨_, _, _, _⟩ (show cmd.endLine = e' from hrec)) ⟨rfl, .nil, hwithin⟩
    | loop cmd =>
      obtain ⟨rfl, rfl⟩ := Loop.execute_cases he
      exact .inside (.loop ⟨_, _⟩ (show cmd.start = c.line from Script.standsAt hc)) ⟨rfl, .nil, hwithin⟩
    | if_ cmd =>
      obtain ⟨hrec, hfalse, hnil⟩ : RecordsOwn s.protos c.line (.if_ cmd) ∧
          cmd.condition.evaluate w ≠ some true ∧ cmd.elseLines = [] := by simpa only [Balanced, hc] using hbal
      obtain ⟨ms', e', hb', hrec⟩ := hrec rfl
      obtain ⟨rfl, rfl⟩ := own hb'
      obtain ⟨arr, _, hcases⟩ := If.execute_cases he
      rcases hcases with ⟨hv, _⟩ | ⟨_, _, rfl, rfl⟩ | ⟨m, _, hm, _⟩
      · exact absurd hv hfalse
      · exact .left rfl (congrArg (· + 1) hrec.1)
      · rw [hnil] at hm
        exact absurd hm (by simp)

/-- while control stays in the block and takes balanced steps, it is inside -/
theorem Progress.run {c₀ : Config} (h : Progress s K n e c₀) {ms : List ℕ} (hb : Block (mark s.protos) n ms e)
    (ha : Around n e K) {ws : List World} (hbal : Along (step s.logic stop) (Balanced s) c₀ ws)
    (hstays : ∀ k < ws.length, Stays K n e (run (step s.logic stop) c₀ (ws.take k))) :
    Progress s K n e (run (step s.logic stop) c₀ ws) := by
  induction ws generalizing c₀ with
  | nil => exact h
  | cons w ws ih =>
    have hnow : Stays K n e c₀ := hstays 0 (Nat.succ_pos _)
    cases h with
    | inside hE hN =>
      refine ih (.step_inside hE hN hb ha hbal.1) hbal.2 fun k hk => ?_
      exact hstays (k + 1) (Nat.succ_lt_succ hk)
    | left hstack hline => exact absurd (hnow.2 (congrArg calls hstack)).2 (by omega)
    | back hcalls hline => exact absurd (hnow.2 hcalls).1 (by omega)

/-- past the end of the block the stack is what it was -/
theorem Progress.stack_eq {c₀ : Config} (h : Progress s K n e c₀) (hn : n < e) (hr : Reaches K (e + 1) c₀) :
    c₀.stack = K := by
  obtain ⟨hline, hcalls⟩ := hr
  cases h with
  | @inside B pre r' hE hN =>
    -- control would still be in the block
    have hpre : calls pre = 0 := by
      have heq : calls pre + calls B = calls B := by rw [← calls_append, ← hN.stack, hcalls, hE.calls]
      omega
    have hin := hN.line.2
    rcases (hN.frames.shrink hpre).2 with ⟨_, rfl⟩ | hlt
    · exact absurd hin (by simp only; omega)
    · exact absurd hin (by simp only at hlt; omega)
  | left hstack _ => exact hstack
  | back _ hle => omega

/-! ## A procedure that is called -/

/-- in the procedure called with the frame `f` on top of `K`: control stays there until it returns -/
theorem called_run {ci : ProcedureCallInfo} {ms : List ℕ} (hb : Block (mark s.protos) ci.startLine ms ci.endLine)
    {c₀ : Config} (h : ∃ pre r', Nested s (ci.startLine + 1, ci.endLine) (.procedure ci :: K) c₀ pre r')
    {ws : List World} (hbal : Along (step s.logic stop) (Balanced s) c₀ ws)
    (hstays : ∀ k, Stays (.procedure ci :: K) ci.startLine ci.endLine (run (step s.logic stop) c₀ (ws.take k))) :
    ∃ pre r', Nested s (ci.startLine + 1, ci.endLine) (.procedure ci :: K) (run (step s.logic stop) c₀ ws) pre r' := by
  obtain ⟨hclosed, hcloses, hle⟩ := closed_of_block hb
  have hbase : Base (ci.startLine + 1, ci.endLine) (.procedure ci :: K) := le_rfl
  induction ws generalizing c₀ with
  | nil => exact h
  | cons w ws ih =>
    refine ih ?_ hbal.2 fun k => hstays (k + 1)
    obtain ⟨pre, r', hN⟩ := h
    by_cases hin : pre ≠ [] ∨ c₀.line < ci.endLine
    · rcases nested_step stop hN hclosed hbase hbal.1 hin with ⟨B', pre', r'', hrev, h'⟩ | ⟨_, _, heq, _⟩
      · rcases hrev with rfl | ⟨_, _, _, heq, _⟩
        · exact ⟨pre', r'', h'⟩
        · exact absurd (List.cons.inj heq).1 (by simp)
      · exact absurd (List.cons.inj heq).1 (by simp)
    · push Not at hin
      obtain ⟨rfl, hge⟩ := hin
      obtain ⟨hstack, hframes, hline⟩ := hN
      cases hframes
      have hlast : c₀.line = ci.endLine := Nat.le_antisymm hline.2 hge
      have hnext : Stays (.procedure ci :: K) ci.startLine ci.endLine (step s.logic stop c₀ w) := hstays 1
      rcases step_cases s.logic stop c₀ w with heq | ⟨command, result, stack, _, hc, he, heq⟩
      · rw [heq]
        exact ⟨[], _, hstack, .nil, hline⟩
      · -- the procedure returns, which `hnext` excludes
        obtain rfl := Script.end_of_closes hc (hlast ▸ hcloses)
        rw [hstack] at he
        obtain ⟨_, hpop⟩ := End.execute_procedure (Script.location_line hc) he
        rw [heq, hpop] at hnext
        have hcalls : calls (.procedure ci :: K) = calls K + 1 := by simp [calls]
        have : calls (.procedure ci :: K) ≤ calls K := hnext.1
        omega

end

/-! ## What a block leaves of the stack -/

/-- if a block is entered in `c`, and control stays in it and in what is called from there until it reaches the line
after its end, the stack is what it was on entry -/
def BlockKept (s : Script) (stop : ℕ) (c : Config) (w : World) (after : List World) : Prop :=
  ∀ ms e, Block (mark s.protos) c.line ms e →
    (∀ k < after.length, Stays c.stack c.line e (run (step s.logic stop) (step s.logic stop c w) (after.take k))) →
    Reaches c.stack (e + 1) (run (step s.logic stop) (step s.logic stop c w) after) →
    (run (step s.logic stop) (step s.logic stop c w) after).stack = c.stack

/-- the frame of a call from line `n` to a procedure on the given lines -/
def frameOf (n : ℕ) (lines : ℕ × ℕ) : CallInfo := .procedure ⟨n, lines.1, lines.2⟩

/-- if a procedure is called in `c`, and control stays in it and in what is called from there until it reaches its end,
the frame of the call is on top of the stack it was called with -/
def FrameKept (s : Script) (stop : ℕ) (c : Config) (w : World) (after : List World) : Prop :=
  ∀ cmd lines, s.logic.commands[c.line]? = some (.call cmd) → s.logic.procedures.lookup cmd.procName = some lines →
    (∀ k, Stays (frameOf c.line lines :: c.stack) lines.1 lines.2
      (run (step s.logic stop) (step s.logic stop c w) (after.take k))) →
    Reaches (frameOf c.line lines :: c.stack) lines.2 (run (step s.logic stop) (step s.logic stop c w) after) →
    (run (step s.logic stop) (step s.logic stop c w) after).stack = frameOf c.line lines :: c.stack

/-- **Call-stack balance.** In a run of balanced steps from the start of a state, a block that is entered and left
leaves the stack as it was, and a procedure that is called finds its own frame on top at its end. -/
theorem stack_balance (s : Script) (stop start : ℕ) (before after : List World) (w : World)
    (hbal : Along (step s.logic stop) (Balanced s) (Config.start start) (before ++ w :: after)) :
    BlockKept s stop (run (step s.logic stop) (Config.start start) before) w after ∧
      FrameKept s stop (run (step s.logic stop) (Config.start start) before) w after := by
  have hframed := run_inv (fun _ _ h hb => framed_step h hb) (framed_start s start) hbal.take
  obtain ⟨hnow, hlater⟩ := hbal.drop
  generalize run (step s.logic stop) (Config.start start) before = c at hframed hnow hlater ⊢
  constructor
  · intro ms e hb hstays hreach
    have ha := hframed.around hb
    exact ((Progress.enter hb hnow).run hb ha hlater hstays).stack_eq (closed_of_block hb).2.2 hreach
  · intro cmd lines hcmd hl hstays hreach
    have hown : ∀ lines, s.logic.procedures.lookup cmd.procName = some lines →
        ∃ ms, Block (mark s.protos) lines.1 ms lines.2 := by simpa only [Balanced, hcmd] using hnow
    obtain ⟨ms, hb⟩ := hown lines hl
    have hle := (closed_of_block hb).2.2
    have hfirst : Stays _ _ _ (step s.logic stop c w) := hstays 0
    have hcalls : calls (frameOf c.line lines :: c.stack) = calls c.stack + 1 := by simp [calls, frameOf]
    have henter : ∃ pre r', Nested s (lines.1 + 1, lines.2) (frameOf c.line lines :: c.stack)
        (step s.logic stop c w) pre r' := by
      rcases step_cases s.logic stop c w with heq | ⟨command, result, stack, _, hc', he, heq⟩
      · -- the call was not executed
        rw [heq] at hfirst
        have : calls (frameOf c.line lines :: c.stack) ≤ calls c.stack := hfirst.1
        omega
      · obtain rfl : .call cmd = command := Option.some.inj (hcmd.symm.trans hc')
        obtain ⟨lines', hl', rfl, rfl⟩ := Call.execute_cases (Script.location_line hc') he
        obtain rfl : lines = lines' := Option.some.inj (hl.symm.trans hl')
        rw [heq]
        exact ⟨[], _, rfl, .nil, le_rfl, hle⟩
    obtain ⟨pre, r', hN⟩ := called_run hb henter hlater hstays
    obtain ⟨hline, hreached⟩ := hreach
    have hpre : calls pre = 0 := by
      have heq : calls pre + calls (frameOf c.line lines :: c.stack) = calls (frameOf c.line lines :: c.stack) :=
        (calls_append _ _).symm.trans ((congrArg calls hN.stack).symm.trans hreached)
      omega
    rcases (hN.frames.shrink hpre).2 with ⟨rfl, _⟩ | hlt
    · exact hN.stack
    · have := hN.line.2
      exact absurd hlt (by simp only; omega)

/-! ## Scripts -/

/-- a procedure, a component, and a call -/
def callAfterBlock : Script where
  readers := bareReaders
  protos := script [["procedure", "p"], ["print", "a"], ["end"], ["component", "c"], ["end"], ["call", "p"]]
  locations := scriptLocations
  numbered := scriptLocations_line
  logic := ⟨"start", [.procedure ⟨"p", 0, 2⟩, .oneLine ⟨"print", ["a"]⟩, .end_, .component ⟨"c", none, 4, 4⟩, .end_,
    .call ⟨"p"⟩], [("_main", 0, 6)], [("p", 0, 2)], [scriptLocations 0, scriptLocations 1, scriptLocations 2,
    scriptLocations 3, scriptLocations 4, scriptLocations 5]⟩
  accepted := by decide
  nested := Nest.block (by decide) (.close false (.plain (by decide) (.nil 2)) (by decide))
    (Nest.block (by decide) (.close false (.nil 4) (by decide)) (.plain (by decide) (.nil 6)))

theorem callAfterBlock_procedure : Block (mark callAfterBlock.protos) 0 [] 2 :=
  ⟨false, by decide, .close false (.plain (by decide) (.nil 2)) (by decide)⟩

theorem callAfterBlock_component : Block (mark callAfterBlock.protos) 3 [] 4 :=
  ⟨false, by decide, .close false (.nil 4) (by decide)⟩

theorem callAfterBlock_balanced : Along (step callAfterBlock.logic 6) (Balanced callAfterBlock) (Config.start 0)
    ([quietWorld, quietWorld, quietWorld] ++ [quietWorld, quietWorld]) := by
  have h₁ : step callAfterBlock.logic 6 (Config.start 0) quietWorld = ⟨3, [], false⟩ := by decide
  have h₂ : step callAfterBlock.logic 6 ⟨3, [], false⟩ quietWorld = ⟨4, [.component ⟨"c", [], 4, 4⟩], false⟩ := by decide
  have h₃ : step callAfterBlock.logic 6 ⟨4, [.component ⟨"c", [], 4, 4⟩], false⟩ quietWorld = ⟨5, [], false⟩ := by decide
  have h₄ : step callAfterBlock.logic 6 ⟨5, [], false⟩ quietWorld = ⟨1, [.procedure ⟨5, 0, 2⟩], false⟩ := by decide
  have component_ends : ∀ f ∈ [CallInfo.component ⟨"c", [], 4, 4⟩].head?, EndsAt 4 f := by
    rintro f ⟨⟩
    rfl
  simp only [List.cons_append, List.nil_append, Along, h₁, h₂, h₃, h₄]
  refine ⟨fun _ => ⟨[], 2, callAfterBlock_procedure, rfl⟩, fun _ => ⟨[], 4, callAfterBlock_component, rfl⟩,
    component_ends, ?_, trivial, trivial⟩
  rintro lines ⟨⟩
  exact ⟨[], callAfterBlock_procedure⟩

/-- the stack after the component, and the frame of the call at the end of the procedure -/
theorem callAfterBlock_stack :
    BlockKept callAfterBlock 6 ⟨3, [], false⟩ quietWorld [quietWorld] ∧
      FrameKept callAfterBlock 6 ⟨5, [], false⟩ quietWorld [quietWorld] :=
  ⟨(stack_balance callAfterBlock 6 0 [quietWorld] [quietWorld] quietWorld callAfterBlock_balanced.take).1,
    (stack_balance callAfterBlock 6 0 [quietWorld, quietWorld, quietWorld] [quietWorld] quietWorld
      callAfterBlock_balanced).2⟩

/-- a procedure that runs an `if` -/
def ifInProcedure : Script where
  readers := bareReaders
  protos := script [["procedure", "p"], ["if", "true", "now"], ["end"], ["end"], ["call", "p"]]
  locations := scriptLocations
  numbered := scriptLocations_line
  logic := ⟨"start", [.procedure ⟨"p", 0, 3⟩, .if_ ⟨.boolValue true, 1, 2, []⟩, .end_, .end_, .call ⟨"p"⟩],
    [("_main", 0, 5)], [("p", 0, 3)],
    [scriptLocations 0, scriptLocations 1, scriptLocations 2, scriptLocations 3, scriptLocations 4]⟩
  accepted := by decide
  nested := Nest.block (by decide) (.close false (Nest.block (by decide) (.close true (.nil 2) (by decide)) (.nil 3))
    (by decide)) (.plain (by decide) (.nil 5))

/-- the frame that the `if` leaves -/
def leftOver : CallInfo := .ifElse ⟨2, true, 0, ⟨1, 2, List.replicate 10 0⟩⟩

/-- after the `if` its frame is on the stack, also at the end of the procedure, which goes on with the next line instead
of returning -/
theorem if_leaves_frame :
    ¬ BlockKept ifInProcedure 5 (run (step ifInProcedure.logic 5) (Config.start 0) [quietWorld, quietWorld])
        quietWorld [quietWorld] ∧
      ¬ FrameKept ifInProcedure 5 (run (step ifInProcedure.logic 5) (Config.start 0) [quietWorld])
        quietWorld [quietWorld, quietWorld] := by
  have h₁ : step ifInProcedure.logic 5 (Config.start 0) quietWorld = ⟨4, [], false⟩ := by decide
  have h₂ : step ifInProcedure.logic 5 ⟨4, [], false⟩ quietWorld = ⟨1, [frameOf 4 (0, 3)], false⟩ := by decide
  have h₃ : step ifInProcedure.logic 5 ⟨1, [frameOf 4 (0, 3)], false⟩ quietWorld =
      ⟨2, [leftOver, frameOf 4 (0, 3)], false⟩ := by decide
  have h₄ : step ifInProcedure.logic 5 ⟨2, [leftOver, frameOf 4 (0, 3)], false⟩ quietWorld =
      ⟨3, [leftOver, frameOf 4 (0, 3)], false⟩ := by decide
  simp only [run_cons, run_nil, h₁, h₂]
  constructor
  · intro h
    have hblock : Block (mark ifInProcedure.protos) 1 [] 2 :=
      ⟨true, by decide, .close true (.nil 2) (by decide)⟩
    have hkept := h [] 2 hblock
    simp only [run_cons, run_nil, h₃, h₄] at hkept
    refine absurd (hkept (fun k hk => ?_) ⟨rfl, by decide⟩) (by decide)
    obtain rfl : k = 0 := Nat.lt_one_iff.mp hk
    exact ⟨by decide, fun _ => by decide⟩
  · intro h
    have hkept := h ⟨"p"⟩ (0, 3) rfl rfl
    simp only [run_cons, run_nil, h₂, h₃, h₄] at hkept
    refine absurd (hkept (fun k => ?_) ⟨rfl, by decide⟩) (by decide)
    match k with
    | 0 => exact ⟨by decide, fun _ => by decide⟩
    | 1 =>
      rw [show [quietWorld, quietWorld].take 1 = [quietWorld] from rfl, run_cons, run_nil, h₃]
      exact ⟨by decide, fun _ => by decide⟩
    | k + 2 =>
      rw [List.take_of_length_le (by simp), run_cons, run_cons, run_nil, h₃, h₄]
      exact ⟨by decide, fun _ => by decide⟩

end BigWorlds.Machine.Balance
