/-
Block resolution (`machine/mod.rs` `command_search`, `machine/cmd/flow/`).

A block's constructor finds the block's end with name tables of its own, which need not fit the blocks in its body: on a
well nested list the search can stop at another block's end, or run past its own.

- `fromPrototype_block`: a block is built where its arguments are accepted and an end is found, and records what is found;
- `resolution_iff`: every command built records its own end and `else` lines exactly where each block fits its search,
  or the search finds no end at all; and no block is refused exactly where every block fits;
- `loop_in_if_misresolved`: a loop in an `if`; the `if` takes the loop's end for its own.
-/
import BigWorlds.Machine.Tables

namespace BigWorlds.Machine

open BigWorlds.Core (bind_eq_ok Mark Part Nest Block depth firstClose)

/-! ## What the constructors record -/

/-- the block's constructor accepts the arguments, apart from its search -/
def argumentsAccepted (R : Readers) (name : String) (args : List String) (location : LocationInfo) : Bool :=
  if name ∈ ifCommandNames then
    match args with
    | [] => false
    | arg :: rest => (Condition.new R arg rest).isOk
  else if name ∈ loopCommandNames then (BreakCondition.new args).isOk
  else if name ∈ forInCommandNames then (ForIn.operands R args location).isOk
  else if name ∈ machineCommandNames then true
  else !args.isEmpty

/-- the command is a block that records `e` as its end and, if it is an `if`, `ms` as its `else` lines -/
def Command.Records (e : ℕ) (ms : List ℕ) : Command → Prop
  | .if_ cmd => cmd.end_ = e ∧ cmd.elseLines = ms
  | .forIn cmd => cmd.end_ = e
  | .loop cmd => cmd.end_ = e
  | .procedure cmd => cmd.endLine = e
  | .state cmd => cmd.endLine = e
  | .component cmd => cmd.endLine = e
  | .machine cmd => cmd.endLine = e
  | _ => False

def Command.isBlock : Command → Bool
  | .if_ _ | .forIn _ | .loop _ | .procedure _ | .state _ | .component _ | .machine _ => true
  | _ => false

/-- a block command built at line `n` records its own end and its own `else` lines -/
def RecordsOwn (commands : List CommandPrototype) (n : ℕ) (c : Command) : Prop :=
  c.isBlock = true → ∃ ms e, Block (mark commands) n ms e ∧ c.Records e ms

section
variable {R : Readers} {location : LocationInfo} {commands : List CommandPrototype} {n e : ℕ} {ms : List ℕ}
  {args : List String}

theorem blockPositions_eq_ok {d : Defs} {text : String} {positions : ℕ × List ℕ} :
    blockPositions location commands n d text = .ok positions ↔
      commandSearch commands (n + 1) d true = .ok (some positions) := by
  unfold blockPositions
  cases commandSearch commands (n + 1) d true with
  | error e => simp
  | ok o => cases o <;> simp

theorem isOk_iff {α : Type} {x : Except Failure α} : x.isOk = true ↔ ∃ a, x = .ok a := by
  cases x <;> simp [Except.isOk, Except.toBool]

theorem If.new_ok_iff (hline : location.line = some n) :
    (∃ c, If.new R args location commands = .ok c ∧ c.end_ = e ∧ c.elseLines = ms) ↔
      argumentsAccepted R "if" args location = true ∧
        commandSearch commands (n + 1) If.defs true = .ok (some (e, ms)) := by
  cases args with
  | nil => simp [If.new, argumentsAccepted, ifCommandNames]
  | cons arg rest =>
    simp only [If.new, hline, bind_eq_ok, unwrap_eq_ok, blockPositions_eq_ok, pure_eq_ok, Option.some.injEq,
      argumentsAccepted, ifCommandNames, List.mem_singleton, if_true, isOk_iff]
    constructor
    · rintro ⟨c, ⟨_, rfl, ⟨e, ms⟩, hs, b, hb, rfl⟩, rfl, rfl⟩
      exact ⟨⟨b, hb⟩, hs⟩
    · rintro ⟨⟨b, hb⟩, hs⟩
      exact ⟨_, ⟨n, rfl, (e, ms), hs, b, hb, rfl⟩, rfl, rfl⟩

theorem Loop.new_ok_iff (hline : location.line = some n) :
    (∃ c, Loop.new args location commands = .ok c ∧ c.end_ = e) ↔
      (BreakCondition.new args).isOk = true ∧
        ∃ ms, commandSearch commands (n + 1) Loop.defs true = .ok (some (e, ms)) := by
  simp only [Loop.new, hline, bind_eq_ok, unwrap_eq_ok, blockPositions_eq_ok, pure_eq_ok, isOk_iff, Option.some.injEq]
  constructor
  · rintro ⟨c, ⟨_, rfl, ⟨e, ms⟩, hs, b, hb, rfl⟩, rfl⟩
    exact ⟨⟨b, hb⟩, ms, hs⟩
  · rintro ⟨⟨b, hb⟩, ms, hs⟩
    exact ⟨_, ⟨n, rfl, (e, ms), hs, b, hb, rfl⟩, rfl⟩

theorem ForIn.new_ok_iff (hline : location.line = some n) :
    (∃ c, ForIn.new R args location commands = .ok c ∧ c.end_ = e) ↔
      (ForIn.operands R args location).isOk = true ∧
        ∃ ms, commandSearch commands (n + 1) ForIn.defs true = .ok (some (e, ms)) := by
  simp only [ForIn.new, hline, bind_eq_ok, unwrap_eq_ok, blockPositions_eq_ok, pure_eq_ok, isOk_iff,
    Option.some.injEq]
  constructor
  · rintro ⟨c, ⟨_, rfl, operands, ho, ⟨e, ms⟩, hs, rfl⟩, rfl⟩
    exact ⟨⟨operands, ho⟩, ms, hs⟩
  · rintro ⟨⟨operands, ho⟩, ms, hs⟩
    exact ⟨_, ⟨n, rfl, operands, ho, (e, ms), hs, rfl⟩, rfl⟩

/-- a block that takes its name from its first argument -/
theorem named_ok_iff {β : Type} {d : Defs} {notFound : String} {mk : ℕ → ℕ × List ℕ → String → β} {p : β → Prop}
    (hline : location.line = some n) (hp : ∀ positions name, p (mk n positions name) ↔ positions.1 = e) :
    (∃ c, (do
      let line ← unwrap location.line
      let positions ← blockPositions location commands line d notFound
      let name ← unwrap args[0]?
      return mk line positions name : Except Failure β) = .ok c ∧ p c) ↔
      (!args.isEmpty) = true ∧ ∃ ms, commandSearch commands (n + 1) d true = .ok (some (e, ms)) := by
  simp only [hline, bind_eq_ok, unwrap_eq_ok, blockPositions_eq_ok, pure_eq_ok, Option.some.injEq]
  cases args with
  | nil => simp
  | cons arg args =>
    constructor
    · rintro ⟨c, ⟨_, rfl, ⟨e', ms⟩, hs, name, hn, rfl⟩, hc⟩
      obtain rfl : e' = e := (hp _ _).mp hc
      exact ⟨rfl, ms, hs⟩
    · rintro ⟨_, ms, hs⟩
      exact ⟨_, ⟨n, rfl, (e, ms), hs, arg, rfl, rfl⟩, (hp _ _).mpr rfl⟩

theorem Procedure.new_ok_iff (hline : location.line = some n) :
    (∃ c, Procedure.new args location commands = .ok c ∧ c.endLine = e) ↔
      (!args.isEmpty) = true ∧ ∃ ms, commandSearch commands (n + 1) Procedure.defs true = .ok (some (e, ms)) :=
  named_ok_iff hline fun _ _ => Iff.rfl

theorem State.new_ok_iff (hline : location.line = some n) :
    (∃ c, State.new args location commands = .ok c ∧ c.endLine = e) ↔
      (!args.isEmpty) = true ∧ ∃ ms, commandSearch commands (n + 1) State.defs true = .ok (some (e, ms)) :=
  named_ok_iff hline fun _ _ => Iff.rfl

theorem ComponentBlock.new_ok_iff (hline : location.line = some n) :
    (∃ c, ComponentBlock.new args location commands = .ok c ∧ c.endLine = e) ↔
      (!args.isEmpty) = true ∧
        ∃ ms, commandSearch commands (n + 1) ComponentBlock.defs true = .ok (some (e, ms)) :=
  named_ok_iff hline fun _ _ => Iff.rfl

theorem MachineBlock.new_ok_iff (hline : location.line = some n) :
    (∃ c, MachineBlock.new location commands = .ok c ∧ c.endLine = e) ↔
      ∃ ms, commandSearch commands (n + 1) MachineBlock.defs true = .ok (some (e, ms)) := by
  simp only [MachineBlock.new, hline, bind_eq_ok, unwrap_eq_ok, blockPositions_eq_ok, pure_eq_ok, Option.some.injEq]
  constructor
  · rintro ⟨c, ⟨_, rfl, ⟨e, ms⟩, hs, rfl⟩, rfl⟩
    exact ⟨ms, hs⟩
  · rintro ⟨ms, hs⟩
    exact ⟨_, ⟨n, rfl, (e, ms), hs, rfl⟩, rfl⟩

/-- a command built by one constructor records what the constructor records -/
theorem built_iff {α : Type} (x : Except Failure α) (mk : α → Command) (p : α → Prop)
    (hp : ∀ a, (mk a).Records e ms ↔ p a) :
    (∃ c, (do return mk (← x) : Except Failure Command) = .ok c ∧ c.Records e ms) ↔ ∃ a, x = .ok a ∧ p a := by
  simp only [bind_eq_ok, pure_eq_ok]
  constructor
  · rintro ⟨_, ⟨a, ha, rfl⟩, hr⟩
    exact ⟨a, ha, (hp a).mp hr⟩
  · rintro ⟨a, ha, hr⟩
    exact ⟨_, ⟨a, ha, rfl⟩, (hp a).mpr hr⟩

/-- **Building a block.** It needs its arguments accepted and an end found, and records what was found. -/
theorem fromPrototype_block {name : String} {d : Defs} (hd : defsOf name = some d) (arguments : Option (List String))
    (output : Option String) (hline : location.line = some n) :
    (∃ c, Command.fromPrototype R ⟨some name, arguments, output⟩ location commands = .ok c ∧ c.Records e ms) ↔
      argumentsAccepted R name (arguments.getD []) location = true ∧
        ∃ ms', commandSearch commands (n + 1) d true = .ok (some (e, ms')) ∧ (name ∈ ifCommandNames → ms' = ms) := by
  unfold defsOf at hd
  split_ifs at hd with h₁ h₂ h₃ h₄ h₅ h₆ h₇ <;> obtain rfl := Option.some.inj hd
  · obtain rfl : name = "if" := List.mem_singleton.mp h₁
    have h : Command.fromPrototype R ⟨some "if", arguments, output⟩ location commands =
        (do return .if_ (← If.new R (arguments.getD []) location commands)) := by
      simp [Command.fromPrototype, oneLineNames]
    rw [h, built_iff _ _ (fun c => c.end_ = e ∧ c.elseLines = ms) fun _ => Iff.rfl, If.new_ok_iff hline]
    simp [ifCommandNames]
  · have h : Command.fromPrototype R ⟨some name, arguments, output⟩ location commands =
        (do return .loop (← Loop.new (arguments.getD []) location commands)) := by
      rcases List.mem_pair.mp h₂ with rfl | rfl <;> simp [Command.fromPrototype, oneLineNames]
    rw [h, built_iff _ _ (fun c => c.end_ = e) fun _ => Iff.rfl, Loop.new_ok_iff hline]
    simp [argumentsAccepted, h₁, h₂]
  · obtain rfl : name = "for" := List.mem_singleton.mp h₃
    have h : Command.fromPrototype R ⟨some "for", arguments, output⟩ location commands =
        (do return .forIn (← ForIn.new R (arguments.getD []) location commands)) := by
      simp [Command.fromPrototype, oneLineNames]
    rw [h, built_iff _ _ (fun c => c.end_ = e) fun _ => Iff.rfl, ForIn.new_ok_iff hline]
    simp [argumentsAccepted, h₁, h₂, h₃]
  · have h : Command.fromPrototype R ⟨some name, arguments, output⟩ location commands =
        (do return .procedure (← Procedure.new (arguments.getD []) location commands)) := by
      rcases List.mem_pair.mp h₄ with rfl | rfl <;> simp [Command.fromPrototype, oneLineNames]
    have hm : name ∉ machineCommandNames := by
      rcases List.mem_pair.mp h₄ with rfl | rfl <;> decide
    rw [h, built_iff _ _ (fun c => c.endLine = e) fun _ => Iff.rfl, Procedure.new_ok_iff hline]
    simp [argumentsAccepted, h₁, h₂, h₃, hm]
  · obtain rfl : name = "state" := List.mem_singleton.mp h₅
    have h : Command.fromPrototype R ⟨some "state", arguments, output⟩ location commands =
        (do return .state (← State.new (arguments.getD []) location commands)) := by
      simp [Command.fromPrototype, oneLineNames]
    have hm : "state" ∉ machineCommandNames := by decide
    rw [h, built_iff _ _ (fun c => c.endLine = e) fun _ => Iff.rfl, State.new_ok_iff hline]
    simp [argumentsAccepted, h₁, h₂, h₃, hm]
  · have h : Command.fromPrototype R ⟨some name, arguments, output⟩ location commands =
        (do return .component (← ComponentBlock.new (arguments.getD []) location commands)) := by
      rcases List.mem_pair.mp h₆ with rfl | rfl <;> simp [Command.fromPrototype, oneLineNames]
    have hm : name ∉ machineCommandNames := by
      rcases List.mem_pair.mp h₆ with rfl | rfl <;> decide
    rw [h, built_iff _ _ (fun c => c.endLine = e) fun _ => Iff.rfl, ComponentBlock.new_ok_iff hline]
    simp [argumentsAccepted, h₁, h₂, h₃, hm]
  · obtain rfl : name = "machine" := List.mem_singleton.mp h₇
    have h : Command.fromPrototype R ⟨some "machine", arguments, output⟩ location commands =
        (do return .machine (← MachineBlock.new location commands)) := by
      simp [Command.fromPrototype, oneLineNames]
    rw [h, built_iff _ _ (fun c => c.endLine = e) fun _ => Iff.rfl, MachineBlock.new_ok_iff hline]
    simp [argumentsAccepted, h₁, h₂, h₃, h₇]

theorem Command.Records.unique {c : Command} {e' : ℕ} {ms' : List ℕ} (h : c.Records e ms) (h' : c.Records e' ms') :
    e = e' := by
  cases c with
  | if_ => exact h.1.symm.trans h'.1
  | forIn | loop | procedure | state | component | machine => exact h.symm.trans h'
  | _ => exact absurd h id

theorem Command.isBlock_iff {c : Command} : c.isBlock = true ↔ ∃ e ms, c.Records e ms := by
  cases c <;> simp [Command.isBlock, Command.Records]

/-- which constructor built a command, from its name -/
inductive BuiltBy (R : Readers) (args : List String) (location : LocationInfo) (commands : List CommandPrototype) :
    String → Command → Prop
  | oneLine {name : String} : name ∈ oneLineNames → BuiltBy R args location commands name (.oneLine ⟨name, args⟩)
  | registerVar (var : VarModel) : BuiltBy R args location commands "var" (.registerVar var)
  | machine {cmd : MachineBlock} : MachineBlock.new location commands = .ok cmd →
      BuiltBy R args location commands "machine" (.machine cmd)
  | component {name : String} {cmd : ComponentBlock} : name = "component" ∨ name = "comp" →
      ComponentBlock.new args location commands = .ok cmd → BuiltBy R args location commands name (.component cmd)
  | state {cmd : State} : State.new args location commands = .ok cmd →
      BuiltBy R args location commands "state" (.state cmd)
  | if_ {cmd : If} : If.new R args location commands = .ok cmd → BuiltBy R args location commands "if" (.if_ cmd)
  | else_ : BuiltBy R args location commands "else" .else_
  | procedure {name : String} {cmd : Procedure} : name = "proc" ∨ name = "procedure" →
      Procedure.new args location commands = .ok cmd → BuiltBy R args location commands name (.procedure cmd)
  | call (cmd : Call) : BuiltBy R args location commands "call" (.call cmd)
  | end_ : BuiltBy R args location commands "end" .end_
  | forIn {cmd : ForIn} : ForIn.new R args location commands = .ok cmd →
      BuiltBy R args location commands "for" (.forIn cmd)
  | loop {name : String} {cmd : Loop} : name = "loop" ∨ name = "while" → Loop.new args location commands = .ok cmd →
      BuiltBy R args location commands name (.loop cmd)
  | break_ : BuiltBy R args location commands "break" .break_

theorem bind_return_ok {α : Type} {x : Except Failure α} {mk : α → Command} {c : Command}
    (h : (do return mk (← x) : Except Failure Command) = .ok c) : ∃ a, x = .ok a ∧ c = mk a := by
  obtain ⟨a, ha, h⟩ := bind_eq_ok.1 h
  exact ⟨a, ha, (Except.ok.inj h).symm⟩

theorem fromPrototype_builtBy {name : String} {arguments : Option (List String)} {output : Option String} {c : Command}
    (h : Command.fromPrototype R ⟨some name, arguments, output⟩ location commands = .ok c) :
    BuiltBy R (arguments.getD []) location commands name c := by
  simp only [Command.fromPrototype] at h
  by_cases h₁ : name ∈ oneLineNames
  · rw [if_pos h₁] at h
    obtain ⟨_, _, h⟩ := bind_eq_ok.mp h
    obtain rfl := Except.ok.inj h
    exact .oneLine h₁
  rw [if_neg h₁] at h
  by_cases h₂ : name = "var"
  · rw [if_pos h₂] at h
    obtain ⟨var, _, rfl⟩ := bind_return_ok h
    exact h₂ ▸ .registerVar var
  rw [if_neg h₂] at h
  by_cases h₃ : name = "machine"
  · rw [if_pos h₃] at h
    obtain ⟨cmd, hc, rfl⟩ := bind_return_ok h
    exact h₃ ▸ .machine hc
  rw [if_neg h₃] at h
  by_cases h₄ : name = "component" ∨ name = "comp"
  · rw [if_pos h₄] at h
    obtain ⟨cmd, hc, rfl⟩ := bind_return_ok h
    exact .component h₄ hc
  rw [if_neg h₄] at h
  by_cases h₅ : name = "state"
  · rw [if_pos h₅] at h
    obtain ⟨cmd, hc, rfl⟩ := bind_return_ok h
    exact h₅ ▸ .state hc
  rw [if_neg h₅] at h
  by_cases h₆ : name = "if"
  · rw [if_pos h₆] at h
    obtain ⟨cmd, hc, rfl⟩ := bind_return_ok h
    exact h₆ ▸ .if_ hc
  rw [if_neg h₆] at h
  by_cases h₇ : name = "else"
  · rw [if_pos h₇] at h
    obtain rfl := Except.ok.inj h
    exact h₇ ▸ .else_
  rw [if_neg h₇] at h
  by_cases h₈ : name = "proc" ∨ name = "procedure"
  · rw [if_pos h₈] at h
    obtain ⟨cmd, hc, rfl⟩ := bind_return_ok h
    exact .procedure h₈ hc
  rw [if_neg h₈] at h
  by_cases h₉ : name = "call"
  · rw [if_pos h₉] at h
    obtain ⟨cmd, _, rfl⟩ := bind_return_ok h
    exact h₉ ▸ .call cmd
  rw [if_neg h₉] at h
  by_cases h₁₀ : name = "end"
  · rw [if_pos h₁₀] at h
    obtain rfl := Except.ok.inj h
    exact h₁₀ ▸ .end_
  rw [if_neg h₁₀] at h
  by_cases h₁₁ : name = "for"
  · rw [if_pos h₁₁] at h
    obtain ⟨cmd, hc, rfl⟩ := bind_return_ok h
    exact h₁₁ ▸ .forIn hc
  rw [if_neg h₁₁] at h
  by_cases h₁₂ : name = "loop" ∨ name = "while"
  · rw [if_pos h₁₂] at h
    obtain ⟨cmd, hc, rfl⟩ := bind_return_ok h
    exact .loop h₁₂ hc
  rw [if_neg h₁₂] at h
  by_cases h₁₃ : name = "break"
  · rw [if_pos h₁₃] at h
    obtain rfl := Except.ok.inj h
    exact h₁₃ ▸ .break_
  rw [if_neg h₁₃] at h
  exact absurd h (by rintro ⟨⟩)

/-- the names with tables of their own are those that build blocks -/
theorem fromPrototype_isBlock {name : String} {arguments : Option (List String)} {output : Option String} {c : Command}
    (h : Command.fromPrototype R ⟨some name, arguments, output⟩ location commands = .ok c) :
    c.isBlock = (defsOf name).isSome := by
  cases fromPrototype_builtBy h with
  | oneLine hn =>
    have hnone : ∀ name ∈ oneLineNames, (defsOf name).isSome = false := by decide
    exact (hnone name hn).symm
  | component hn | procedure hn | loop hn => rcases hn with rfl | rfl <;> rfl
  | _ => rfl

end

/-! ## All blocks of a list -/

/-- what is built of line `n`, where `locations` are those that `from_script` gives the lines -/
def builtAt (R : Readers) (locations : ℕ → LocationInfo) (commands : List CommandPrototype) (n : ℕ) :
    Option (Except Failure Command) :=
  commands[n]?.map fun proto => Command.fromPrototype R proto (locations n) commands

/-- the tables of the search made for line `n`, if it opens a block and its arguments are accepted -/
def searchAt (R : Readers) (locations : ℕ → LocationInfo) (commands : List CommandPrototype) (n : ℕ) :
    Option Defs :=
  match commands[n]? with
  | some ⟨some name, arguments, _⟩ =>
    if argumentsAccepted R name (arguments.getD []) (locations n) then defsOf name else none
  | _ => none

section
variable {R : Readers} {locations : ℕ → LocationInfo} {commands : List CommandPrototype} {n e : ℕ} {ms : List ℕ}
  {d : Defs}

theorem searchAt_eq_some_iff :
    searchAt R locations commands n = some d ↔ ∃ name arguments output,
      commands[n]? = some ⟨some name, arguments, output⟩ ∧ defsOf name = some d ∧
        argumentsAccepted R name (arguments.getD []) (locations n) = true := by
  unfold searchAt
  rcases commands[n]? with _ | ⟨_ | name, arguments, output⟩
  · simp
  · simp
  · simp only [Option.some.injEq, CommandPrototype.mk.injEq, Option.ite_none_right_eq_some]
    constructor
    · rintro ⟨ha, hd⟩
      exact ⟨name, arguments, output, ⟨rfl, rfl, rfl⟩, hd, ha⟩
    · rintro ⟨_, _, _, ⟨rfl, rfl, rfl⟩, hd, ha⟩
      exact ⟨ha, hd⟩

theorem opener_of_defsOf {name : String} (h : defsOf name = some d) : name ∈ openerNames := by
  by_contra ho
  simp only [openerNames, List.mem_append, not_or] at ho
  obtain ⟨⟨⟨⟨⟨⟨h₁, h₂⟩, h₃⟩, h₄⟩, h₅⟩, h₆⟩, h₇⟩ := ho
  simp [defsOf, h₁, h₂, h₃, h₄, h₅, h₆, h₇] at h

/-- in a well nested list the line opens a block that is closed in the list -/
theorem WellNested.block (hw : WellNested commands) (h : searchAt R locations commands n = some d) :
    n < commands.length ∧ ∃ ms e, Block (mark commands) n ms e ∧ e < commands.length := by
  obtain ⟨name, arguments, output, hn, hd, _⟩ := searchAt_eq_some_iff.1 h
  have hlt : n < commands.length := (List.getElem?_eq_some_iff.mp hn).1
  have hmark : mark commands n = markOf name := by simp [mark, nameAt, hn]
  have hopen := markOf_opener (opener_of_defsOf hd)
  cases hm : markOf name with
  | opens f =>
    obtain ⟨ms, e, hb, he⟩ := hw.block_inside (Nat.zero_le n) hlt (hmark.trans hm)
    exact ⟨hlt, ms, e, ⟨f, hmark.trans hm, hb⟩, he⟩
  | _ => simp [hm, opensBlock] at hopen

theorem block_unique {ms' : List ℕ} {e' : ℕ} (h : Block (mark commands) n ms e)
    (h' : Block (mark commands) n ms' e') : ms = ms' ∧ e = e' := by
  obtain ⟨f, _, h⟩ := h
  obtain ⟨f', _, h'⟩ := h'
  exact ⟨h.middles_unique h', h.end_unique h'⟩

/-- the command of a block is built, and records the block's own lines, exactly where the block fits its search -/
theorem built_own_iff (hline : ∀ n, (locations n).line = some n) (h : searchAt R locations commands n = some d)
    (hb : Block (mark commands) n ms e) (he : e < commands.length) :
    (∃ c, builtAt R locations commands n = some (.ok c) ∧ c.Records e ms) ↔ d.Fits commands n e := by
  obtain ⟨name, arguments, output, hn, hd, ha⟩ := searchAt_eq_some_iff.1 h
  have hsound := sound_of_defsOf hd
  simp only [builtAt, hn, Option.map_some, Option.some.injEq]
  rw [fromPrototype_block hd arguments output (hline n), ← hsound.search_own_iff hb he]
  constructor
  · rintro ⟨_, ms', hs, _⟩
    exact ⟨ms', hs⟩
  · rintro ⟨ms', hs⟩
    refine ⟨ha, ms', hs, fun hif => ?_⟩
    -- the `else` lines of an `if` that fits are its own
    obtain rfl : If.defs = d := Option.some.inj ((if_pos hif).symm.trans hd)
    obtain ⟨f, hf, hnest⟩ := hb
    obtain rfl : f = true := by
      rw [mark, nameAt, hn, Option.bind_some, Option.map_some, Option.getD_some, markOf, if_pos hif] at hf
      exact (Mark.opens.inj hf).symm
    have hown := if_search_own hnest he ((hsound.search_own_iff ⟨true, hf, hnest⟩ he).mp ⟨ms', hs⟩)
    rw [hs] at hown
    exact (Prod.mk.inj (Option.some.inj (Except.ok.inj hown))).2

/-- a block is refused exactly where its search finds no end -/
theorem refused_iff (hline : ∀ n, (locations n).line = some n) (hlt : n < commands.length)
    (h : searchAt R locations commands n = some d) :
    (∀ c, builtAt R locations commands n ≠ some (.ok c)) ↔ d.Covered commands n commands.length := by
  obtain ⟨name, arguments, output, hn, hd, ha⟩ := searchAt_eq_some_iff.1 h
  rw [← (sound_of_defsOf hd).search_none_iff hlt]
  simp only [builtAt, hn, Option.map_some, ne_eq, Option.some.injEq]
  constructor
  · intro hno e ms hs
    obtain ⟨c, hc, _⟩ := (fromPrototype_block hd arguments output (hline n)).mpr ⟨ha, ms, hs, fun _ => rfl⟩
    exact hno c hc
  · intro hno c hc
    have hb : c.isBlock = true := by rw [fromPrototype_isBlock hc, hd]; rfl
    obtain ⟨e, ms, hr⟩ := Command.isBlock_iff.1 hb
    obtain ⟨_, ms', hs, _⟩ := (fromPrototype_block hd arguments output (hline n)).mp ⟨c, hc, hr⟩
    exact hno e ms' hs

/-- a block command is only built where a search was made -/
theorem searched_of_built (hline : ∀ n, (locations n).line = some n) {c : Command}
    (h : builtAt R locations commands n = some (.ok c)) (hb : c.isBlock = true) :
    ∃ d, searchAt R locations commands n = some d := by
  unfold builtAt at h
  rcases hn : commands[n]? with _ | ⟨_ | name, arguments, output⟩
  · simp [hn] at h
  · simp [hn, Command.fromPrototype] at h
  · rw [hn, Option.map_some] at h
    have hc := Option.some.inj h
    obtain ⟨d, hd⟩ := Option.isSome_iff_exists.mp ((fromPrototype_isBlock hc).symm.trans hb)
    obtain ⟨e, ms, hr⟩ := Command.isBlock_iff.1 hb
    have ha := ((fromPrototype_block hd arguments output (hline n)).mp ⟨c, hc, hr⟩).1
    exact ⟨d, searchAt_eq_some_iff.2 ⟨name, arguments, output, hn, hd, ha⟩⟩

theorem isBlock_of_searched {c : Command} (h : builtAt R locations commands n = some (.ok c))
    (hs : searchAt R locations commands n = some d) : c.isBlock = true := by
  obtain ⟨name, arguments, output, hn, hd, _⟩ := searchAt_eq_some_iff.1 hs
  rw [builtAt, hn, Option.map_some] at h
  rw [fromPrototype_isBlock (Option.some.inj h), hd]
  rfl

/-- the command built of a block's line records the block's own lines exactly where the block fits its search -/
theorem recordsOwn_iff (hline : ∀ n, (locations n).line = some n) {c : Command}
    (h : builtAt R locations commands n = some (.ok c)) (hs : searchAt R locations commands n = some d)
    (hb : Block (mark commands) n ms e) (he : e < commands.length) :
    RecordsOwn commands n c ↔ d.Fits commands n e := by
  rw [← built_own_iff hline hs hb he]
  constructor
  · intro hr
    obtain ⟨ms', e', hb', hr'⟩ := hr (isBlock_of_searched h hs)
    obtain ⟨rfl, rfl⟩ := block_unique hb hb'
    exact ⟨c, h, hr'⟩
  · rintro ⟨c', hc', hr⟩ _
    obtain rfl : c' = c := Except.ok.inj (Option.some.inj (hc'.symm.trans h))
    exact ⟨ms, e, hb, hr⟩

end

/-- **Block resolution.** In a well nested list, every command built records its own end and, if it is an `if`, exactly
its own `else` lines, if and only if each block fits its search or its search finds no end down to the end of the list.
And every block is built and records its own lines if and only if every block fits its search. -/
theorem resolution_iff (R : Readers) (locations : ℕ → LocationInfo) (hline : ∀ n, (locations n).line = some n)
    (commands : List CommandPrototype) (hw : WellNested commands) :
    ((∀ n c, builtAt R locations commands n = some (.ok c) → RecordsOwn commands n c) ↔
        ∀ n d, searchAt R locations commands n = some d → ∀ ms e, Block (mark commands) n ms e →
          d.Fits commands n e ∨ d.Covered commands n commands.length) ∧
      ((∀ n, (searchAt R locations commands n).isSome = true →
          ∃ c, builtAt R locations commands n = some (.ok c) ∧ RecordsOwn commands n c) ↔
        ∀ n d, searchAt R locations commands n = some d → ∀ ms e, Block (mark commands) n ms e →
          d.Fits commands n e) := by
  have inside : ∀ {n d ms e}, searchAt R locations commands n = some d → Block (mark commands) n ms e →
      n < commands.length ∧ e < commands.length := by
    intro n d ms e hs hb
    obtain ⟨hn, ms', e', hb', he⟩ := hw.block hs
    obtain ⟨rfl, rfl⟩ := block_unique hb hb'
    exact ⟨hn, he⟩
  refine ⟨⟨fun h n d hs ms e hb => ?_, fun h n c hc hblock => ?_⟩, fun h n d hs ms e hb => ?_, fun h n hs => ?_⟩
  · obtain ⟨hn, he⟩ := inside hs hb
    by_cases hbuilt : ∃ c, builtAt R locations commands n = some (.ok c)
    · obtain ⟨c, hc⟩ := hbuilt
      exact Or.inl ((recordsOwn_iff hline hc hs hb he).mp (h n c hc))
    · exact Or.inr ((refused_iff hline hn hs).mp fun c hc => hbuilt ⟨c, hc⟩)
  · obtain ⟨d, hs⟩ := searched_of_built hline hc hblock
    obtain ⟨hn, ms, e, hb, he⟩ := hw.block hs
    rcases h n d hs ms e hb with hf | hcov
    · exact (recordsOwn_iff hline hc hs hb he).mpr hf hblock
    · exact absurd hc ((refused_iff hline hn hs).mpr hcov c)
  · obtain ⟨_, he⟩ := inside hs hb
    obtain ⟨c, hc, hr⟩ := h n (by rw [hs]; rfl)
    exact (recordsOwn_iff hline hc hs hb he).mp hr
  · obtain ⟨d, hs⟩ := Option.isSome_iff_exists.mp hs
    obtain ⟨_, ms, e, hb, he⟩ := hw.block hs
    obtain ⟨c, hc, _⟩ := (built_own_iff hline hs hb he).mpr (h n d hs ms e hb)
    exact ⟨c, hc, (recordsOwn_iff hline hc hs hb he).mpr (h n d hs ms e hb)⟩

/-! ## Scripts -/

/-- readers that know no address and no value; the options of `var` are not read -/
def bareReaders : Readers where
  address _ := .error .panic
  value _ := .error .panic
  shortLocalAddress location _ := .error (.error location (.invalidAddress ""))
  registerVar _ location := .error (.error location (.invalidCommandBody "Must provide variable address as free arg"))
  oneLine _ _ := .ok ()
  formatErrNoArguments _ := .error .panic

/-- the locations of a script without a file -/
def scriptLocations (n : ℕ) : LocationInfo := { LocationInfo.empty with line := some n }

theorem scriptLocations_line (n : ℕ) : (scriptLocations n).line = some n := rfl

/-- a script given line by line, each line the name and the arguments of a command -/
def script (lines : List (List String)) : List CommandPrototype :=
  lines.map fun line => ⟨line.head?, some line.tail, none⟩

theorem plain_if_resolved :
    ∃ c, builtAt bareReaders scriptLocations (script [["if", "true", "now"], ["end"]]) 0 = some (.ok c) ∧
      RecordsOwn (script [["if", "true", "now"], ["end"]]) 0 c := by
  have hbody : Nest (mark (script [["if", "true", "now"], ["end"]])) (.arms true) 1 [] 1 :=
    .close true (.nil 1) (by decide)
  refine ((resolution_iff bareReaders scriptLocations scriptLocations_line (script [["if", "true", "now"], ["end"]])
    (Nest.block (by decide) hbody (.nil 2))).2.mpr ?_) 0 (by decide)
  intro n d hs ms e hb
  match n with
  | 0 =>
    obtain ⟨rfl, rfl⟩ := block_unique hb ⟨true, by decide, hbody⟩
    refine ⟨by simp [Defs.hidden, Defs.taken], fun m h₁ h₂ => ?_⟩
    obtain rfl : m = 1 := by omega
    simp [Defs.hidden, Defs.taken]
  | 1 => exact absurd hs (by rw [show searchAt bareReaders scriptLocations _ 1 = none by decide]; simp)
  | n + 2 => exact absurd hs (by simp [searchAt, script])

/-- a loop inside an `if`: the `if` takes the loop's end for its own -/
theorem loop_in_if_misresolved :
    WellNested (script [["if", "true", "now"], ["loop"], ["end"], ["end"]]) ∧
      builtAt bareReaders scriptLocations (script [["if", "true", "now"], ["loop"], ["end"], ["end"]]) 0 =
        some (.ok (.if_ ⟨.boolValue true, 0, 2, []⟩)) ∧
      ¬ RecordsOwn (script [["if", "true", "now"], ["loop"], ["end"], ["end"]]) 0
        (.if_ ⟨.boolValue true, 0, 2, []⟩) := by
  have hloop : Nest (mark (script [["if", "true", "now"], ["loop"], ["end"], ["end"]])) (.arms false) 2 [] 2 :=
    .close false (.nil 2) (by decide)
  have hif : Nest (mark (script [["if", "true", "now"], ["loop"], ["end"], ["end"]])) (.arms true) 1 [] 3 :=
    .close true (.block (by decide) hloop (.nil 3)) (by decide)
  refine ⟨Nest.block (by decide) hif (.nil 4), by decide, fun h => ?_⟩
  obtain ⟨ms, e, hb, hr⟩ := h rfl
  obtain ⟨rfl, rfl⟩ := block_unique hb ⟨true, by decide, hif⟩
  exact absurd hr.1 (by decide)

end BigWorlds.Machine
