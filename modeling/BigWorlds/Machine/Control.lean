/-
Loops and calls that are open, kept beside the execution.

The machine finds out what an `end` closes from the frame on top of its stack. `Tracked` keeps the loops entered and the
procedures called, as the language has them, without looking at that stack:
- a call opens an entry, which the end line of the procedure closes;
- a loop opens an entry, which a `break` closes.
The execution itself is not changed (`run_track_config`).

- `Held p`: as long as an entry of the kinds `p` is open, the stack is the frame of the innermost entry on the stack from
  before it, with nothing above but frames of components that control is in, and so on for the entries below;
- `held_track`: a step keeps this if it is balanced, and no `break`, while such an entry is open.
-/
import BigWorlds.Machine.Balance

namespace BigWorlds.Machine.Control

open BigWorlds.Core (Mark Part Nest Block run run_nil run_cons run_inv Along)
open Branches (Within Closed)
open Balance

/-- a call that has not returned or a loop that has not been left, with the stack from before -/
inductive Entry where
  | call (ci : ProcedureCallInfo) (stack : List CallInfo)
  | loop (ci : LoopCallInfo) (stack : List CallInfo)
deriving DecidableEq, Repr

namespace Entry

def stack : Entry → List CallInfo
  | .call _ stack | .loop _ stack => stack

/-- the frame that the entry has on the stack -/
def frame : Entry → CallInfo
  | .call ci _ => .procedure ci
  | .loop ci _ => .loop ci

/-- the line of the block that the entry executes -/
def start : Entry → ℕ
  | .call ci _ => ci.startLine
  | .loop ci _ => ci.start

/-- where control is outside of the entry -/
def outer : Entry → ℕ
  | .call ci _ => ci.callLine + 1
  | .loop ci _ => ci.start

def isCall : Entry → Bool
  | .call _ _ => true
  | .loop _ _ => false

def isLoop : Entry → Bool
  | .call _ _ => false
  | .loop _ _ => true

end Entry

/-- the execution and what is open, the innermost first -/
structure Tracked where
  config : Config
  entries : List Entry
deriving DecidableEq, Repr

def Tracked.start (line : ℕ) : Tracked := ⟨Config.start line, []⟩

/-- what is open after the command at the line has been executed -/
def opened (logic : Logic) (c : Config) (entries : List Entry) : Command → List Entry
  | .call cmd =>
    match logic.procedures.lookup cmd.procName with
    | some lines => .call ⟨c.line, lines.1, lines.2⟩ c.stack :: entries
    | none => entries
  | .loop cmd => .loop ⟨cmd.start, cmd.end_⟩ c.stack :: entries
  | .break_ =>
    match entries with
    | .loop _ _ :: rest => rest
    | entries => entries
  | .end_ =>
    match entries with
    | .call ci _ :: rest => if ci.endLine = c.line then rest else entries
    | entries => entries
  | _ => entries

def track (logic : Logic) (stop : ℕ) (x : Tracked) (w : World) : Tracked where
  config := step logic stop x.config w
  entries :=
    if (step logic stop x.config w).halted then x.entries
    else
      match logic.commands[x.config.line]? with
      | some command => opened logic x.config x.entries command
      | none => x.entries

@[simp] theorem track_config (logic : Logic) (stop : ℕ) (x : Tracked) (w : World) :
    (track logic stop x w).config = step logic stop x.config w := rfl

/-- tracking leaves the execution as it is -/
theorem run_track_config (logic : Logic) (stop : ℕ) (x : Tracked) (ws : List World) :
    (run (track logic stop) x ws).config = run (step logic stop) x.config ws := by
  induction ws generalizing x with
  | nil => rfl
  | cons w ws ih => exact ih (track logic stop x w)

/-! ## The stack under open entries -/

/-- frames of calls and loops -/
def entryFrames (stack : List CallInfo) : ℕ := stack.countP fun
  | .procedure _ | .loop _ => true
  | _ => false

@[simp] theorem entryFrames_append (pre B : List CallInfo) : entryFrames (pre ++ B) = entryFrames pre + entryFrames B :=
  List.countP_append

theorem calls_le_entryFrames (stack : List CallInfo) : calls stack ≤ entryFrames stack := by
  refine List.countP_mono_left fun f _ hf => ?_
  cases f with
  | procedure _ => rfl
  | _ => exact absurd hf (by simp)

variable {s : Script} {stop : ℕ} {p : Entry → Bool} {c : Config} {w : World} {entries : List Entry}

/-- an entry of the kinds asked for is open -/
def Relevant (p : Entry → Bool) (entries : List Entry) : Prop := ∃ entry ∈ entries, p entry = true

theorem Relevant.cons {entry : Entry} (h : Relevant p entries) : Relevant p (entry :: entries) := by
  obtain ⟨e, he, hp⟩ := h
  exact ⟨e, List.mem_cons_of_mem _ he, hp⟩

/-- control is in the block of the entry, and above its frame are those of components inside -/
def Inner (s : Script) (entry : Entry) (c : Config) : Prop :=
  ∃ ms e pre r', Block (mark s.protos) entry.start ms e ∧ (∀ ci K, entry = .call ci K → ci.endLine = e) ∧
    Nested s (entry.start + 1, e) (entry.frame :: entry.stack) c pre r' ∧ entryFrames pre = 0

/-- while an entry of the kinds asked for is open, the stack is made of the frames of the entries -/
def Held (p : Entry → Bool) (s : Script) : List Entry → Config → Prop
  | [], _ => True
  | entry :: rest, c =>
    Relevant p (entry :: rest) → Inner s entry c ∧ Held p s rest ⟨entry.outer, entry.stack, false⟩

theorem Held.of_irrelevant (h : ¬ Relevant p entries) : Held p s entries c := by
  cases entries with
  | nil => trivial
  | cons entry rest => exact fun hr => absurd hr h

/-- the line and the stack are all that counts -/
theorem Held.congr {c' : Config} (h : Held p s entries c) (hline : c'.line = c.line) (hstack : c'.stack = c.stack) :
    Held p s entries c' := by
  cases entries with
  | nil => trivial
  | cons entry rest =>
    intro hr
    obtain ⟨⟨ms, e, pre, r', hb, hend, hn, hpre⟩, hrest⟩ := h hr
    exact ⟨⟨ms, e, pre, r', hb, hend, ⟨hstack.trans hn.stack, hn.frames, hline ▸ hn.line⟩, hpre⟩, hrest⟩

/-- control may move on in front of a line that does not end a block -/
theorem Held.next (h : Held p s entries c) (hm : mark s.protos c.line ≠ .closes) :
    Held p s entries ⟨c.line + 1, c.stack, false⟩ := by
  cases entries with
  | nil => trivial
  | cons entry rest =>
    intro hr
    obtain ⟨⟨ms, e, pre, r', hb, hend, hn, hpre⟩, hrest⟩ := h hr
    have hlt : c.line < r'.2 := by
      refine lt_of_le_of_ne hn.line.2 fun heq => hm ?_
      rw [heq]
      cases hn.frames with
      | nil => exact (closed_of_block hb).2.1
      | procedure _ hb' _ => exact (closed_of_block hb').2.1
      | component _ hb' _ _ => exact (closed_of_block hb').2.1
      | loop _ hb' _ _ => exact (closed_of_block hb').2.1
    exact ⟨⟨ms, e, pre, r', hb, hend, ⟨hn.stack, hn.frames, Nat.le_succ_of_le hn.line.1, hlt⟩, hpre⟩, hrest⟩

/-- an entry that opens -/
theorem Held.push {entry : Entry} {ms : List ℕ} {e : ℕ} (h : Held p s entries ⟨entry.outer, entry.stack, false⟩)
    (hb : Block (mark s.protos) entry.start ms e)
    (hend : ∀ ci K, entry = .call ci K → ci.endLine = e) {c : Config} (hline : c.line = entry.start + 1)
    (hstack : c.stack = entry.frame :: entry.stack) : Held p s (entry :: entries) c := fun _ =>
  ⟨⟨ms, e, [], _, hb, hend, ⟨hstack, .nil, by rw [hline]; exact ⟨le_rfl, (closed_of_block hb).2.2⟩⟩, rfl⟩, h⟩

/-! ## The step -/

/-- what a step may do while an entry of the kinds asked for is open: it is balanced, and no `break` in a loop -/
def Undisturbed (p : Entry → Bool) (s : Script) (x : Tracked) (w : World) : Prop :=
  Relevant p x.entries → Balanced s x.config w ∧
    ∀ ci K, x.entries.head? = some (.loop ci K) → s.logic.commands[x.config.line]? ≠ some .break_

/-- a procedure that is called is a block of the script, if the call matters -/
def CallsBlock (p : Entry → Bool) (s : Script) (x : Tracked) : Prop :=
  ∀ cmd lines, s.logic.commands[x.config.line]? = some (.call cmd) →
    s.logic.procedures.lookup cmd.procName = some lines →
    Relevant p (.call ⟨x.config.line, lines.1, lines.2⟩ x.config.stack :: x.entries) →
    ∃ ms, Block (mark s.protos) lines.1 ms lines.2

/-- where calls do not matter by themselves, balanced steps are enough -/
theorem callsBlock_isLoop {x : Tracked} (hok : Undisturbed Entry.isLoop s x w) : CallsBlock Entry.isLoop s x := by
  intro cmd lines hc hl hr
  have hr' : Relevant Entry.isLoop x.entries := by
    obtain ⟨entry, hentry, hp⟩ := hr
    rcases List.mem_cons.mp hentry with rfl | hentry
    · exact absurd hp (by simp [Entry.isLoop])
    · exact ⟨entry, hentry, hp⟩
  have hown : ∀ lines, s.logic.procedures.lookup cmd.procName = some lines →
      ∃ ms, Block (mark s.protos) lines.1 ms lines.2 := by simpa only [Balance.Balanced, hc] using (hok hr').1
  exact hown lines hl

/-- commands other than calls and loops leave the number of entries on the stack, and so does `end` unless a call is on
top -/
theorem entryFrames_execute {command : Command} {result : CommandResult} {stack stack' : List CallInfo}
    {location : LocationInfo} (hcall : ∀ cmd, command ≠ .call cmd) (hloop : ∀ cmd, command ≠ .loop cmd)
    (htop : command = .end_ → ∀ ci, stack.head? ≠ some (.procedure ci))
    (he : command.execute s.logic w location stack = some (result, stack')) : entryFrames stack' = entryFrames stack := by
  cases command with
  | call cmd => exact absurd rfl (hcall cmd)
  | loop cmd => exact absurd rfl (hloop cmd)
  | oneLine cmd =>
    obtain ⟨err, _, heq⟩ := Option.map_eq_some_iff.mp he
    rw [(Prod.mk.inj heq).2]
  | registerVar var =>
    obtain ⟨-, rfl⟩ := Prod.mk.inj (Option.some.inj he)
    unfold RegisterVar.execute
    split <;> rfl
  | else_ | forIn cmd | break_ | machine cmd | procedure cmd | state cmd =>
    rw [(Prod.mk.inj (Option.some.inj he)).2]
  | component cmd =>
    obtain ⟨-, rfl⟩ := ComponentBlock.execute_cases he
    rfl
  | if_ cmd =>
    obtain ⟨arr, _, ⟨_, _, rfl⟩ | ⟨_, _, _, rfl⟩ | ⟨_, _, _, _, rfl⟩⟩ := If.execute_cases he <;> rfl
  | end_ =>
    cases stack with
    | nil => rw [(Prod.mk.inj (Option.some.inj he)).2]
    | cons f rest =>
      cases f with
      | procedure ci => exact absurd rfl (htop rfl ci)
      | ifElse ci | loop ci => rw [(Prod.mk.inj (Option.some.inj he)).2]
      | component ci =>
        obtain ⟨-, rfl⟩ := Prod.mk.inj (Option.some.inj he)
        rfl
      | forIn ci =>
        simp only [Command.execute, End.execute] at he
        split_ifs at he
        · rw [(ForInCallInfo.next_cases he).2]
          rfl
        · obtain ⟨-, rfl⟩ := Prod.mk.inj (Option.some.inj he)
          rfl

/-- a balanced step in the block of an entry, other than a call, a loop or its own end, stays there -/
theorem Inner.stays {entry : Entry} {ms : List ℕ} {e : ℕ} {pre : List CallInfo} {r' : ℕ × ℕ}
    (hb : Block (mark s.protos) entry.start ms e) (hend : ∀ ci K, entry = .call ci K → ci.endLine = e)
    (hn : Nested s (entry.start + 1, e) (entry.frame :: entry.stack) c pre r') (hpre : entryFrames pre = 0)
    (hbal : Balanced s c w) (hcall : ∀ cmd, s.logic.commands[c.line]? ≠ some (.call cmd))
    (hloop : ∀ cmd, s.logic.commands[c.line]? ≠ some (.loop cmd)) (hin : pre ≠ [] ∨ c.line < e) :
    Inner s entry (step s.logic stop c w) := by
  obtain ⟨hclosed, _, hle⟩ := closed_of_block hb
  have hbase : Base (entry.start + 1, e) (entry.frame :: entry.stack) := by
    cases entry with
    | call ci K => exact (hend ci K rfl).ge
    | loop ci K => trivial
  rcases nested_step stop hn hclosed hbase hbal hin with ⟨B', pre', r'', hrev, hn'⟩ | ⟨ci, rest, heq, hline, hstack⟩
  · obtain rfl : B' = entry.frame :: entry.stack := by
      rcases hrev with rfl | ⟨ci, vars, rest, heq, _⟩
      · rfl
      · cases entry <;> exact absurd (List.cons.inj heq).1 (by simp [Entry.frame])
    refine ⟨ms, e, pre', r'', hb, hend, hn', ?_⟩
    have hframes : entryFrames (step s.logic stop c w).stack = entryFrames c.stack := by
      rcases step_cases s.logic stop c w with heq | ⟨command, result, stack, _, hc, he, heq⟩
      · rw [heq]
        rfl
      · rw [heq]
        refine entryFrames_execute (fun cmd h => hcall cmd (h ▸ hc)) (fun cmd h => hloop cmd (h ▸ hc)) ?_ he
        rintro rfl ci htop
        -- a call on top is that of the entry, whose end is another line
        have hown : ∀ f ∈ c.stack.head?, EndsAt c.line f := by simpa only [Balance.Balanced, hc] using hbal
        have hci : ci.endLine = c.line := hown _ htop
        rw [hn.stack] at htop
        cases pre with
        | nil =>
          cases entry with
          | loop _ _ => exact absurd htop (by simp [Entry.frame])
          | call ci' K =>
            obtain rfl : ci' = ci := by simpa [Entry.frame] using htop
            have := hend ci' K rfl
            rcases hin with hne | hlt
            · exact hne rfl
            · omega
        | cons f pre =>
          obtain rfl : f = .procedure ci := by simpa using htop
          exact absurd hpre (by simp [entryFrames])
    rw [hn'.stack, hn.stack, entryFrames_append, entryFrames_append] at hframes
    omega
  · refine ⟨ms, e, [], _, hb, hend, ⟨hstack, .nil, ?_⟩, rfl⟩
    have hstart : ci.start = entry.start := by
      cases entry with
      | call _ _ => exact absurd (List.cons.inj heq).1 (by simp [Entry.frame])
      | loop ci' K =>
        obtain rfl : ci' = ci := by simpa [Entry.frame] using (List.cons.inj heq).1
        rfl
    rw [hline, hstart]
    exact ⟨le_rfl, hle⟩

/-- the `end` of an entry's own block, with the entry innermost: a call returns, a loop begins anew -/
theorem Inner.at_end {entry : Entry} {ms : List ℕ} {e : ℕ} (hb : Block (mark s.protos) entry.start ms e)
    (hend : ∀ ci K, entry = .call ci K → ci.endLine = e) (hc : s.logic.commands[c.line]? = some .end_)
    (hstack : c.stack = entry.frame :: entry.stack) (hline : c.line = e) (hh : c.halted = false) :
    step s.logic stop c w =
      match entry with
      | .call ci K => ⟨ci.callLine + 1, K, false⟩
      | .loop ci _ => ⟨ci.start + 1, c.stack, false⟩ := by
  have hloc := Script.location_line hc
  cases entry with
  | call ci K =>
    have hci : ci.endLine = c.line := (hend ci K rfl).trans hline.symm
    simp only [Entry.frame, Entry.stack] at hstack
    simp [step, hh, hc, Command.execute, hstack, End.execute, hloc, hci, nextLine]
  | loop ci K =>
    simp only [Entry.frame, Entry.stack] at hstack
    simp [step, hh, hc, Command.execute, hstack, End.execute, nextLine]

/-- a halting step leaves line and stack -/
theorem Held.halt (h : Held p s entries c) : Held p s entries c.halt := h.congr rfl rfl

/-- an entry that a command opens -/
theorem Held.opens {entry : Entry} {e : ℕ} (h : Held p s entries c) (hm : mark s.protos c.line ≠ .closes)
    (houter : entry.outer = c.line ∨ entry.outer = c.line + 1) (hstack : entry.stack = c.stack)
    (hb : Relevant p (entry :: entries) → ∃ ms, Block (mark s.protos) entry.start ms e)
    (hend : ∀ ci K, entry = .call ci K → ci.endLine = e) :
    Held p s (entry :: entries) ⟨entry.start + 1, entry.frame :: c.stack, false⟩ := by
  intro hr
  obtain ⟨ms, hb⟩ := hb hr
  refine Held.push ?_ hb hend rfl (by rw [hstack]) hr
  rcases houter with houter | houter
  · exact h.congr houter hstack
  · exact (h.next hm).congr houter hstack

/-- only calls and loops open entries -/
theorem mem_of_mem_opened {command : Command} (hcall : ∀ cmd, command ≠ .call cmd) (hloop : ∀ cmd, command ≠ .loop cmd)
    {entry : Entry} (h : entry ∈ opened s.logic c entries command) : entry ∈ entries := by
  cases command with
  | call cmd => exact absurd rfl (hcall cmd)
  | loop cmd => exact absurd rfl (hloop cmd)
  | break_ | end_ =>
    simp only [opened] at h
    grind
  | _ => exact h

/-- in the block of the innermost entry, on its last line or before -/
theorem Nested.line_le {entry : Entry} {e : ℕ} {pre B : List CallInfo} {r' : ℕ × ℕ}
    (hn : Nested s (entry.start + 1, e) B c pre r') (hpre : entryFrames pre = 0) :
    c.line ≤ e ∧ (c.line = e → pre = []) := by
  have hcalls : calls pre = 0 := Nat.le_zero.mp (hpre ▸ calls_le_entryFrames pre)
  have hle := hn.line.2
  rcases (hn.frames.shrink hcalls).2 with ⟨rfl, rfl⟩ | hlt
  · exact ⟨hle, fun _ => rfl⟩
  · simp only at hlt
    exact ⟨by omega, fun heq => by omega⟩

/-- what a command other than a call and a loop does to the entries while a relevant one is open -/
theorem Held.command {command : Command} (h : Held p s entries c) (hr : Relevant p entries)
    (hok : Undisturbed p s ⟨c, entries⟩ w) (hc : s.logic.commands[c.line]? = some command) (hh : c.halted = false)
    (hcall : ∀ cmd, command ≠ .call cmd) (hloop : ∀ cmd, command ≠ .loop cmd) :
    Held p s (opened s.logic c entries command) (step s.logic stop c w) := by
  obtain ⟨hbal, hbreak⟩ := hok hr
  cases entries with
  | nil => exact absurd hr (by simp [Relevant])
  | cons entry rest =>
    obtain ⟨⟨ms, e, pre, r', hb, hend, hn, hpre⟩, hrest⟩ := h hr
    obtain ⟨hle, htop⟩ := Nested.line_le hn hpre
    by_cases hlast : c.line = e
    · -- the `end` of the entry's own block
      obtain rfl := Script.end_of_closes hc (hlast ▸ (closed_of_block hb).2.1)
      obtain rfl := htop hlast
      have hstack : c.stack = entry.frame :: entry.stack := hn.stack
      rw [Inner.at_end hb hend hc hstack hlast hh]
      cases entry with
      | call ci K =>
        have hci : ci.endLine = c.line := (hend ci K rfl).trans hlast.symm
        rw [opened, if_pos hci]
        exact hrest
      | loop ci K =>
        refine fun _ => ⟨⟨ms, e, [], _, hb, hend, ⟨hstack, .nil, le_rfl, (closed_of_block hb).2.2⟩, rfl⟩, hrest⟩
    · have hsame : opened s.logic c (entry :: rest) command = entry :: rest := by
        cases command with
        | call cmd => exact absurd rfl (hcall cmd)
        | loop cmd => exact absurd rfl (hloop cmd)
        | break_ =>
          cases entry with
          | call ci K => rfl
          | loop ci K => exact absurd hc (hbreak ci K rfl)
        | end_ =>
          cases entry with
          | call ci K => exact if_neg fun hci => hlast (hci.symm.trans (hend ci K rfl))
          | loop ci K => rfl
        | _ => rfl
      rw [hsame]
      refine fun _ => ⟨Inner.stays hb hend hn hpre hbal ?_ ?_ (Or.inr (by omega)), hrest⟩
      · intro cmd hcmd
        exact hcall cmd (Option.some.inj (hc.symm.trans hcmd))
      · intro cmd hcmd
        exact hloop cmd (Option.some.inj (hc.symm.trans hcmd))

/-- **The step lemma.** What is on the stack under relevant entries stays the frames of the entries, as long as the
steps in between are undisturbed. -/
theorem held_track {x : Tracked} (h : Held p s x.entries x.config) (hok : Undisturbed p s x w)
    (hown : CallsBlock p s x) :
    Held p s (track s.logic stop x w).entries (track s.logic stop x w).config := by
  obtain ⟨c, entries⟩ := x
  simp only [track_config]
  rcases step_cases s.logic stop c w with heq | ⟨command, result, stack, hh, hc, he, heq⟩
  · have hsame : (track s.logic stop ⟨c, entries⟩ w).entries = entries := by
      simp [track, heq, Config.halt]
    rw [heq, hsame]
    exact h.halt
  · have hopened : (track s.logic stop ⟨c, entries⟩ w).entries = opened s.logic c entries command := by
      simp [track, heq, hc]
    rw [hopened]
    by_cases hcall : ∃ cmd, command = .call cmd
    · obtain ⟨cmd, rfl⟩ := hcall
      obtain ⟨lines, hl, rfl, rfl⟩ := Call.execute_cases (Script.location_line hc) he
      simp only [heq, opened, hl, nextLine]
      refine h.opens ?_ (Or.inr rfl) rfl (hown cmd lines hc hl) ?_
      · rw [Script.mark_command hc]
        simp [Command.mark]
      · rintro ci K ⟨rfl, rfl⟩
        rfl
    by_cases hloop : ∃ cmd, command = .loop cmd
    · obtain ⟨cmd, rfl⟩ := hloop
      obtain ⟨rfl, rfl⟩ := Loop.execute_cases he
      have hstart : cmd.start = c.line := Script.standsAt hc
      obtain ⟨ms, e, hb⟩ := Script.block_of_opens hc rfl
      simp only [heq, opened, nextLine, ← hstart]
      refine h.opens ?_ (Or.inl hstart) rfl (fun _ => ⟨ms, hstart ▸ hb⟩) ?_
      · rw [Script.mark_command hc]
        simp [Command.mark]
      · rintro ci K ⟨⟩
    push Not at hcall hloop
    by_cases hr : Relevant p entries
    · exact h.command hr hok hc hh hcall hloop
    · refine Held.of_irrelevant fun hr' => hr ?_
      obtain ⟨entry, hentry, hp⟩ := hr'
      exact ⟨entry, mem_of_mem_opened hcall hloop hentry, hp⟩

/-- what holds along every run of such steps -/
theorem held_run {p : Entry → Bool} {s : Script} {stop start : ℕ} {ws : List World}
    (h : Along (track s.logic stop) (fun x w => Undisturbed p s x w ∧ CallsBlock p s x) (Tracked.start start) ws) :
    Held p s (run (track s.logic stop) (Tracked.start start) ws).entries
      (run (track s.logic stop) (Tracked.start start) ws).config := by
  have hstep : ∀ x w, Held p s x.entries x.config → Undisturbed p s x w ∧ CallsBlock p s x →
      Held p s (track s.logic stop x w).entries (track s.logic stop x w).config :=
    fun x w hx hok => held_track hx hok.1 hok.2
  have hstart : Held p s (Tracked.start start).entries (Tracked.start start).config := trivial
  exact run_inv hstep hstart h

end BigWorlds.Machine.Control
