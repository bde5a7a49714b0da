/-
Loops (`machine/cmd/flow/_loop.rs`, `end.rs`, the dispatch in `machine/cmd/mod.rs`).

A loop command pushes a frame with its lines; its condition is stored and never read. `end` goes back to the start of the
loop if the loop's frame is on top. The dispatch has no case for `break`: nothing ever takes the frame of a loop off.

- `LoopControl`: a loop declared `false` is not entered, `break` leaves the loop entered last, and at the end of that
  loop its body begins anew;
- `loop_control`: so it is all along a run in which no loop declared `false` is met and no loop entered is disturbed;
- `loop_control_fails`: each of the three goes wrong, at a loop declared `false`, at a `break`, and where an `if` in a
  loop has left its frame.
-/
import BigWorlds.Machine.Control

namespace BigWorlds.Machine.Loops

open BigWorlds.Core (Mark Part Nest Block run run_nil run_cons Along)
open Branches (quietWorld)
open Balance Control

/-- what loops promise of the next step -/
structure LoopControl (s : Script) (stop : ℕ) (x : Tracked) (w : World) : Prop where
  /-- the body of a loop whose condition is false is not executed -/
  skipped : ∀ cmd ms e, s.logic.commands[x.config.line]? = some (.loop cmd) → cmd.breakCondition = .boolValue false →
    Block (mark s.protos) x.config.line ms e →
    ¬ (x.config.line < (step s.logic stop x.config w).line ∧ (step s.logic stop x.config w).line ≤ e)
  /-- `break` goes on after the end of the loop entered last, with the stack from before the loop -/
  breaks : ∀ ci stack ms e, s.logic.commands[x.config.line]? = some .break_ → x.config.halted = false →
    x.entries.head? = some (.loop ci stack) → Block (mark s.protos) ci.start ms e →
    step s.logic stop x.config w = ⟨e + 1, stack, false⟩
  /-- at the end of the loop entered last its body begins anew -/
  repeats : ∀ ci stack ms e, x.entries.head? = some (.loop ci stack) → Block (mark s.protos) ci.start ms e →
    x.config.line = e → x.config.halted = false →
    step s.logic stop x.config w = ⟨ci.start + 1, x.config.stack, false⟩

/-- a loop declared `false` is the next command -/
def FalseLoop (s : Script) (c : Config) : Prop :=
  ∃ cmd, s.logic.commands[c.line]? = some (.loop cmd) ∧ cmd.breakCondition = .boolValue false

/-- what a step may do: no loop declared `false` is met and, while a loop is open, the step is balanced and no
`break` in a loop -/
def Undisturbed (s : Script) (x : Tracked) (w : World) : Prop :=
  Control.Undisturbed Entry.isLoop s x w ∧ ¬ FalseLoop s x.config

/-! ## Steps of loops and of breaks -/

section
variable {s : Script} {stop : ℕ} {c : Config} {w : World}

/-- a `break` never leaves anything -/
theorem step_break (hc : s.logic.commands[c.line]? = some .break_) :
    step s.logic stop c w = c.halt ∨ step s.logic stop c w = ⟨c.line + 1, c.stack, false⟩ := by
  rcases step_cases s.logic stop c w with heq | ⟨command, result, stack, _, hc', he, heq⟩
  · exact Or.inl heq
  · obtain rfl := Option.some.inj (hc.symm.trans hc')
    obtain ⟨rfl, rfl⟩ := Prod.mk.inj (Option.some.inj he)
    exact Or.inr heq

/-- with the frames of the open loops in place, and short of the two commands that never work -/
theorem loopControl_of_held {x : Tracked} (h : Held Entry.isLoop s x.entries x.config) (hok : Undisturbed s x w) :
    LoopControl s stop x w where
  skipped cmd ms e hc hfalse _ := absurd ⟨cmd, hc, hfalse⟩ hok.2
  breaks ci stack ms e hc _ hhead _ := by
    have hr : Relevant Entry.isLoop x.entries := ⟨_, List.mem_of_head? hhead, rfl⟩
    exact absurd hc ((hok.1 hr).2 ci stack hhead)
  repeats ci stack ms e hhead hb hline hh := by
    cases hx : x.entries with
    | nil =>
      rw [hx] at hhead
      exact absurd hhead (by simp)
    | cons entry rest =>
      rw [hx] at h hhead
      obtain rfl : entry = .loop ci stack := Option.some.inj hhead
      obtain ⟨⟨ms', e', pre, r', hb', hend, hn, hpre⟩, _⟩ := h ⟨_, List.mem_cons_self, rfl⟩
      obtain ⟨rfl, rfl⟩ := block_unique hb' hb
      obtain rfl : pre = [] := (Nested.line_le hn hpre).2 hline
      exact Inner.at_end hb hend (Script.end_at hb hline) hn.stack hline hh

/-- the condition is exact for the next step, if it is executed and balanced -/
theorem loopControl_iff {x : Tracked} (h : Held Entry.isLoop s x.entries x.config)
    (hbal : Relevant Entry.isLoop x.entries → Balanced s x.config w)
    (hgoes : (step s.logic stop x.config w).halted = false) : LoopControl s stop x w ↔ Undisturbed s x w := by
  refine ⟨fun hlc => ⟨fun hr => ⟨hbal hr, fun ci stack hhead hc => ?_⟩, ?_⟩, fun hok => loopControl_of_held h hok⟩
  · -- a `break` keeps the frame of the loop
    cases hx : x.entries with
    | nil =>
      rw [hx] at hhead
      exact absurd hhead (by simp)
    | cons entry rest =>
      rw [hx] at h
      obtain rfl : entry = .loop ci stack := Option.some.inj ((congrArg List.head? hx).symm.trans hhead)
      obtain ⟨⟨ms, e, pre, r', hb, _, hn, _⟩, _⟩ := h ⟨_, List.mem_cons_self, rfl⟩
      have hbreak : step s.logic stop x.config w = x.config.halt ∨
          step s.logic stop x.config w = ⟨x.config.line + 1, x.config.stack, false⟩ := step_break hc
      rcases hbreak with heq | heq
      · rw [heq] at hgoes
        exact absurd hgoes (by simp [Config.halt])
      · have hh : x.config.halted = false := by
          rcases step_cases s.logic stop x.config w with hhalt | ⟨_, _, _, hh, _⟩
          · rw [hhalt] at hgoes
            exact absurd hgoes (by simp [Config.halt])
          · exact hh
        have hstack : x.config.stack = stack :=
          congrArg Config.stack (heq.symm.trans (hlc.breaks ci stack ms e hc hh hhead hb))
        have hlen := congrArg List.length (hn.stack.symm.trans hstack)
        simp only [List.length_append, List.length_cons, Entry.stack] at hlen
        omega
  · rintro ⟨cmd, hc, hfalse⟩
    obtain ⟨ms, e, hb⟩ := Script.block_of_opens hc rfl
    refine hlc.skipped cmd ms e hc hfalse hb ?_
    rcases step_cases s.logic stop x.config w with hhalt | ⟨command, _, _, _, hc', he, heq⟩
    · rw [hhalt] at hgoes
      exact absurd hgoes (by simp [Config.halt])
    · obtain rfl := Option.some.inj (hc.symm.trans hc')
      obtain ⟨rfl, _⟩ := Loop.execute_cases he
      rw [heq]
      exact ⟨Nat.lt_succ_self _, (closed_of_block hb).2.2⟩

end

/-- **Loop control.** While the steps are undisturbed, loops do what they promise. -/
theorem loop_control (s : Script) (stop start : ℕ) (ws : List World) (w : World)
    (h : Along (track s.logic stop) (Undisturbed s) (Tracked.start start) (ws ++ [w])) :
    LoopControl s stop (run (track s.logic stop) (Tracked.start start) ws) w := by
  have hheld := held_run (h.take.mono fun x w hok => ⟨hok.1, callsBlock_isLoop hok.1⟩)
  obtain ⟨hok, _⟩ := h.drop
  exact loopControl_of_held hheld hok

/-! ## Scripts -/

/-- a loop that prints -/
def printLoop : Script where
  readers := bareReaders
  protos := script [["loop"], ["print", "a"], ["end"]]
  locations := scriptLocations
  numbered := scriptLocations_line
  logic := ⟨"start", [.loop ⟨.none, 0, 2⟩, .oneLine ⟨"print", ["a"]⟩, .end_], [("_main", 0, 3)], [],
    [scriptLocations 0, scriptLocations 1, scriptLocations 2]⟩
  accepted := by decide
  nested := Nest.block (by decide) (.close false (.plain (by decide) (.nil 2)) (by decide)) (.nil 3)

/-- the frame of the loop -/
def loopFrame : CallInfo := .loop ⟨0, 2⟩

/-- at its end the loop begins anew -/
theorem printLoop_repeats :
    LoopControl printLoop 3 ⟨⟨2, [loopFrame], false⟩, [.loop ⟨0, 2⟩ []]⟩ quietWorld := by
  have h₁ : track printLoop.logic 3 (Tracked.start 0) quietWorld = ⟨⟨1, [loopFrame], false⟩, [.loop ⟨0, 2⟩ []]⟩ := by
    decide
  have h₂ : track printLoop.logic 3 ⟨⟨1, [loopFrame], false⟩, [.loop ⟨0, 2⟩ []]⟩ quietWorld =
      ⟨⟨2, [loopFrame], false⟩, [.loop ⟨0, 2⟩ []]⟩ := by decide
  have halong : Along (track printLoop.logic 3) (Undisturbed printLoop) (Tracked.start 0)
      ([quietWorld, quietWorld] ++ [quietWorld]) := by
    simp only [List.cons_append, List.nil_append, Along, h₁, h₂]
    refine ⟨⟨?_, ?_⟩, ⟨fun _ => ⟨trivial, ?_⟩, ?_⟩, ⟨fun _ => ⟨?_, ?_⟩, ?_⟩, trivial⟩
    · rintro ⟨_, h, _⟩
      exact absurd h List.not_mem_nil
    · rintro ⟨cmd, ⟨⟩, ⟨⟩⟩
    · rintro ci K - ⟨⟩
    · rintro ⟨cmd, ⟨⟩, _⟩
    · rintro f ⟨⟩
      trivial
    · rintro ci K - ⟨⟩
    · rintro ⟨cmd, ⟨⟩, _⟩
  exact loop_control printLoop 3 0 [quietWorld, quietWorld] quietWorld halong

/-- a loop that is left at once -/
def breakLoop : Script where
  readers := bareReaders
  protos := script [["loop"], ["break"], ["end"]]
  locations := scriptLocations
  numbered := scriptLocations_line
  logic := ⟨"start", [.loop ⟨.none, 0, 2⟩, .break_, .end_], [("_main", 0, 3)], [],
    [scriptLocations 0, scriptLocations 1, scriptLocations 2]⟩
  accepted := by decide
  nested := Nest.block (by decide) (.close false (.plain (by decide) (.nil 2)) (by decide)) (.nil 3)

/-- a loop declared `false` -/
def falseLoop : Script where
  readers := bareReaders
  protos := script [["while", "false"], ["print", "a"], ["end"]]
  locations := scriptLocations
  numbered := scriptLocations_line
  logic := ⟨"start", [.loop ⟨.boolValue false, 0, 2⟩, .oneLine ⟨"print", ["a"]⟩, .end_], [("_main", 0, 3)], [],
    [scriptLocations 0, scriptLocations 1, scriptLocations 2]⟩
  accepted := by decide
  nested := Nest.block (by decide) (.close false (.plain (by decide) (.nil 2)) (by decide)) (.nil 3)

/-- a loop that runs an `if`, whose `end` the loop takes for its own -/
def ifLoop : Script where
  readers := bareReaders
  protos := script [["loop"], ["if", "true", "now"], ["end"], ["end"]]
  locations := scriptLocations
  numbered := scriptLocations_line
  logic := ⟨"start", [.loop ⟨.none, 0, 2⟩, .if_ ⟨.boolValue true, 1, 2, []⟩, .end_, .end_], [("_main", 0, 4)], [],
    [scriptLocations 0, scriptLocations 1, scriptLocations 2, scriptLocations 3]⟩
  accepted := by decide
  nested := Nest.block (by decide) (.close false (Nest.block (by decide) (.close true (.nil 2) (by decide)) (.nil 3))
    (by decide)) (.nil 4)

/-- a `break` that does not leave its loop, a loop declared `false` that is entered, and a loop that is not repeated
because an `if` in it has left its frame -/
theorem loop_control_fails :
    ¬ LoopControl breakLoop 3 (run (track breakLoop.logic 3) (Tracked.start 0) [quietWorld]) quietWorld ∧
      ¬ LoopControl falseLoop 3 (Tracked.start 0) quietWorld ∧
      ¬ LoopControl ifLoop 4 (run (track ifLoop.logic 4) (Tracked.start 0) [quietWorld, quietWorld, quietWorld])
        quietWorld := by
  refine ⟨fun h => ?_, fun h => ?_, fun h => ?_⟩
  · have hblock : Block (mark breakLoop.protos) 0 [] 2 :=
      ⟨false, by decide, .close false (.plain (by decide) (.nil 2)) (by decide)⟩
    have hrun : run (track breakLoop.logic 3) (Tracked.start 0) [quietWorld] =
        ⟨⟨1, [loopFrame], false⟩, [.loop ⟨0, 2⟩ []]⟩ := by decide
    rw [hrun] at h
    exact absurd (h.breaks ⟨0, 2⟩ [] [] 2 rfl rfl rfl hblock) (by decide)
  · have hblock : Block (mark falseLoop.protos) 0 [] 2 :=
      ⟨false, by decide, .close false (.plain (by decide) (.nil 2)) (by decide)⟩
    exact h.skipped ⟨.boolValue false, 0, 2⟩ [] 2 rfl rfl hblock (by decide)
  · have hblock : Block (mark ifLoop.protos) 0 [] 3 :=
      ⟨false, by decide, .close false (Nest.block (by decide) (.close true (.nil 2) (by decide)) (.nil 3)) (by decide)⟩
    have hrun : run (track ifLoop.logic 4) (Tracked.start 0) [quietWorld, quietWorld, quietWorld] =
        ⟨⟨3, [.ifElse ⟨2, true, 0, ⟨1, 2, List.replicate 10 0⟩⟩, loopFrame], false⟩, [.loop ⟨0, 2⟩ []]⟩ := by decide
    rw [hrun] at h
    exact absurd (h.repeats ⟨0, 2⟩ [] [] 3 rfl hblock rfl rfl) (by decide)

end BigWorlds.Machine.Loops
