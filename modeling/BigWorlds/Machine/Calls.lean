/-
Procedure call and return (`machine/cmd/flow/call.rs`, `end.rs`, `procedure.rs`, `state.rs`).

A call pushes a frame with its own line and the lines of the procedure; `end` returns if that frame is on top and ends on
the line of the `end`. A definition of a procedure or of a state that is met in the course of execution jumps past the
end it records.

- `Returns`: at the end of the procedure that was called last, the step goes to the line after the call, with the stack
  from before;
- `Skips`: a definition that is met is passed over as a whole;
- `call_returns`: both hold all along a run in which no procedure that is called is disturbed, and in which the
  definitions met record their own lines;
- `if_in_procedure`: an `if` in a procedure leaves its frame, and the procedure does not return.
-/
import BigWorlds.Machine.Control

namespace BigWorlds.Machine

/-- a procedure or a state -/
def Command.isDefinition : Command → Bool
  | .procedure _ | .state _ => true
  | _ => false

namespace Calls

open BigWorlds.Core (Mark Part Nest Block run run_nil run_cons Along)
open Branches (quietWorld)
open Balance Control

/-! ## The properties -/

/-- at the end of the procedure called last, execution resumes after the call -/
def Returns (s : Script) (stop : ℕ) (x : Tracked) (w : World) : Prop :=
  ∀ ci stack, x.entries.head? = some (.call ci stack) → x.config.line = ci.endLine → x.config.halted = false →
    step s.logic stop x.config w = ⟨ci.callLine + 1, stack, false⟩

/-- a definition that control falls onto is passed over, unless the execution ends there -/
def Skips (s : Script) (stop : ℕ) (c : Config) (w : World) : Prop :=
  ∀ command ms e, s.logic.commands[c.line]? = some command → command.isDefinition = true →
    Block (mark s.protos) c.line ms e → c.halted = false → ¬ (c.stack = [] ∧ stop ≤ c.line) →
    step s.logic stop c w = ⟨e + 1, c.stack, false⟩

/-- the definition met records its own lines -/
def OwnDefinition (s : Script) (c : Config) : Prop :=
  ∀ command, s.logic.commands[c.line]? = some command → command.isDefinition = true →
    RecordsOwn s.protos c.line command

/-- what a step may do:
- while a call has not returned it is balanced, and no `break` in a loop;
- a procedure that is called, or met, and a state that is met record their own lines -/
def Undisturbed (s : Script) (x : Tracked) (w : World) : Prop :=
  Control.Undisturbed Entry.isCall s x w ∧ CallsBlock Entry.isCall s x ∧ OwnDefinition s x.config

/-! ## The result -/

variable {s : Script} {stop : ℕ} {c : Config} {w : World}

/-- the end line that a definition records is where it goes on from -/
theorem step_definition {command : Command} (hc : s.logic.commands[c.line]? = some command)
    (hdef : command.isDefinition = true) (hh : c.halted = false) (hgoes : ¬ (c.stack = [] ∧ stop ≤ c.line)) {ms : List ℕ}
    {e : ℕ} (hrec : command.Records e ms) : step s.logic stop c w = ⟨e + 1, c.stack, false⟩ := by
  cases command with
  | procedure cmd | state cmd =>
    obtain rfl : cmd.endLine = e := hrec
    exact step_of_execute hh hc hgoes rfl
  | _ => exact absurd hdef (by simp [Command.isDefinition])

theorem isBlock_of_isDefinition {command : Command} (h : command.isDefinition = true) : command.isBlock = true := by
  cases command with
  | procedure cmd | state cmd => rfl
  | _ => exact absurd h (by simp [Command.isDefinition])

/-- a definition is passed over exactly if it records its own end -/
theorem skips_iff (hh : c.halted = false) (hgoes : ¬ (c.stack = [] ∧ stop ≤ c.line)) :
    Skips s stop c w ↔ OwnDefinition s c := by
  constructor
  · intro h command hc hdef hblock
    obtain ⟨e, ms, hrec⟩ := Command.isBlock_iff.1 hblock
    obtain ⟨f, hm⟩ : ∃ f, command.mark = .opens f := by
      cases command with
      | procedure cmd | state cmd => exact ⟨false, rfl⟩
      | _ => exact absurd hdef (by simp [Command.isDefinition])
    obtain ⟨ms', e', hb⟩ := Script.block_of_opens hc hm
    have hstep := (h command ms' e' hc hdef hb hh hgoes).symm.trans (step_definition hc hdef hh hgoes hrec)
    obtain rfl : e' = e := Nat.succ.inj (congrArg Config.line hstep)
    refine ⟨ms', e', hb, ?_⟩
    cases command with
    | procedure cmd | state cmd => exact hrec
    | _ => exact absurd hdef (by simp [Command.isDefinition])
  · intro h command ms e hc hdef hb _ _
    obtain ⟨ms', e', hb', hrec⟩ := h command hc hdef (isBlock_of_isDefinition hdef)
    obtain ⟨rfl, rfl⟩ := block_unique hb' hb
    exact step_definition hc hdef hh hgoes hrec

theorem OwnDefinition.skips (h : OwnDefinition s c) : Skips s stop c w := by
  intro command ms e hc hdef hb hh hgoes
  exact (skips_iff hh hgoes).mpr h command ms e hc hdef hb hh hgoes

/-- with the frames of the open calls in place, the procedure returns -/
theorem returns_of_held {x : Tracked} (h : Held Entry.isCall s x.entries x.config) : Returns s stop x w := by
  intro ci stack hhead hline hh
  cases hx : x.entries with
  | nil =>
    rw [hx] at hhead
    exact absurd hhead (by simp)
  | cons entry rest =>
    rw [hx] at h hhead
    obtain rfl : entry = .call ci stack := Option.some.inj hhead
    obtain ⟨⟨ms, e, pre, r', hb, hend, hn, hpre⟩, _⟩ := h ⟨_, List.mem_cons_self, rfl⟩
    have he : ci.endLine = e := hend ci stack rfl
    have hlast : x.config.line = e := hline.trans he
    obtain rfl : pre = [] := (Nested.line_le hn hpre).2 hlast
    exact Inner.at_end hb hend (Script.end_at hb hlast) hn.stack hlast hh

/-- **Procedure call and return.** While the steps are undisturbed, a procedure whose end is reached returns to the line
after the call with the stack from before the call, and definitions that are met are passed over. -/
theorem call_returns (s : Script) (stop start : ℕ) (ws : List World) (w : World)
    (h : Along (track s.logic stop) (Undisturbed s) (Tracked.start start) (ws ++ [w])) :
    Returns s stop (run (track s.logic stop) (Tracked.start start) ws) w ∧
      Skips s stop (run (track s.logic stop) (Tracked.start start) ws).config w := by
  have hheld := held_run (h.take.mono fun x w hok => ⟨hok.1, hok.2.1⟩)
  obtain ⟨⟨_, _, hown⟩, _⟩ := h.drop
  exact ⟨returns_of_held hheld, hown.skips⟩

/-! ## Scripts -/

/-- with nothing open, a step that calls nothing disturbs nothing -/
theorem undisturbed_idle {command : Command} (hc : s.logic.commands[c.line]? = some command)
    (hcall : ∀ cmd, command ≠ .call cmd) (hdef : OwnDefinition s c) : Undisturbed s ⟨c, []⟩ w := by
  refine ⟨fun hr => ?_, fun cmd lines hc' => ?_, hdef⟩
  · obtain ⟨_, h, _⟩ := hr
    exact absurd h List.not_mem_nil
  · exact absurd (Option.some.inj (hc.symm.trans hc')) (hcall cmd)

/-- where no definition stands -/
theorem ownDefinition_of_not {command : Command} (hc : s.logic.commands[c.line]? = some command)
    (hdef : command.isDefinition = false) : OwnDefinition s c := by
  intro command' hc' hdef'
  obtain rfl := Option.some.inj (hc.symm.trans hc')
  exact absurd (hdef.symm.trans hdef') (by simp)

theorem callAfterBlock_undisturbed : Along (track callAfterBlock.logic 6) (Undisturbed callAfterBlock) (Tracked.start 0)
    ([quietWorld, quietWorld, quietWorld, quietWorld, quietWorld] ++ [quietWorld]) := by
  have h₁ : track callAfterBlock.logic 6 (Tracked.start 0) quietWorld = ⟨⟨3, [], false⟩, []⟩ := by decide
  have h₂ : track callAfterBlock.logic 6 ⟨⟨3, [], false⟩, []⟩ quietWorld =
      ⟨⟨4, [.component ⟨"c", [], 4, 4⟩], false⟩, []⟩ := by decide
  have h₃ : track callAfterBlock.logic 6 ⟨⟨4, [.component ⟨"c", [], 4, 4⟩], false⟩, []⟩ quietWorld =
      ⟨⟨5, [], false⟩, []⟩ := by decide
  have h₄ : track callAfterBlock.logic 6 ⟨⟨5, [], false⟩, []⟩ quietWorld =
      ⟨⟨1, [frameOf 5 (0, 2)], false⟩, [.call ⟨5, 0, 2⟩ []]⟩ := by decide
  have h₅ : track callAfterBlock.logic 6 ⟨⟨1, [frameOf 5 (0, 2)], false⟩, [.call ⟨5, 0, 2⟩ []]⟩ quietWorld =
      ⟨⟨2, [frameOf 5 (0, 2)], false⟩, [.call ⟨5, 0, 2⟩ []]⟩ := by decide
  have procedure_own : OwnDefinition callAfterBlock (Config.start 0) := by
    rintro command ⟨⟩ _ _
    exact ⟨[], 2, callAfterBlock_procedure, rfl⟩
  simp only [List.cons_append, List.nil_append, Along, h₁, h₂, h₃, h₄, h₅]
  refine ⟨undisturbed_idle rfl (by simp) procedure_own, undisturbed_idle rfl (by simp) (ownDefinition_of_not rfl rfl),
    undisturbed_idle rfl (by simp) (ownDefinition_of_not rfl rfl), ⟨?_, ?_, ownDefinition_of_not rfl rfl⟩,
    ⟨?_, ?_, ownDefinition_of_not rfl rfl⟩, ⟨?_, ?_, ownDefinition_of_not rfl rfl⟩, trivial⟩
  · rintro ⟨_, h, _⟩
    exact absurd h List.not_mem_nil
  · rintro cmd lines ⟨⟩ ⟨⟩ _
    exact ⟨[], callAfterBlock_procedure⟩
  · exact fun _ => ⟨trivial, fun _ _ h => absurd h (by simp)⟩
  · rintro cmd lines ⟨⟩
  · refine fun _ => ⟨?_, fun _ _ h => absurd h (by simp)⟩
    rintro f ⟨⟩
    rfl
  · rintro cmd lines ⟨⟩

/-- the procedure called returns -/
theorem callAfterBlock_returns :
    Returns callAfterBlock 6 ⟨⟨2, [frameOf 5 (0, 2)], false⟩, [.call ⟨5, 0, 2⟩ []]⟩ quietWorld ∧
      Skips callAfterBlock 6 ⟨2, [frameOf 5 (0, 2)], false⟩ quietWorld :=
  call_returns callAfterBlock 6 0 [quietWorld, quietWorld, quietWorld, quietWorld, quietWorld] quietWorld
    callAfterBlock_undisturbed

/-- the `if` leaves its frame, and at its end the procedure goes on with the next line instead of returning -/
theorem if_in_procedure :
    ¬ Returns ifInProcedure 5
      (run (track ifInProcedure.logic 5) (Tracked.start 0) [quietWorld, quietWorld, quietWorld, quietWorld])
      quietWorld := by
  have hrun : run (track ifInProcedure.logic 5) (Tracked.start 0) [quietWorld, quietWorld, quietWorld, quietWorld] =
      ⟨⟨3, [leftOver, frameOf 4 (0, 3)], false⟩, [.call ⟨4, 0, 3⟩ []]⟩ := by decide
  intro h
  rw [hrun] at h
  have hstep := h ⟨4, 0, 3⟩ [] rfl rfl rfl
  exact absurd hstep (by decide)

end Calls

end BigWorlds.Machine
