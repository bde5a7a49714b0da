/-
Accepted scripts (`Logic::from_script`): what the commands of the list are, and what one turn of the execution does.

- `Script`: a well nested list of prototypes that `from_script` turns into logic;
- `Script.mark_command`: a command stands where the language has its mark, and a block records the line it stands on;
- `step_cases` and the `execute_cases` lemmas: what a turn and what each command does to line and stack.
-/
import BigWorlds.Machine.Resolution
import BigWorlds.Machine.Execution

namespace BigWorlds.Machine

open BigWorlds.Core (bind_eq_ok Mark Part Nest Block)

/-- a script that is well nested and accepted; its commands are numbered from zero -/
structure Script where
  readers : Readers
  protos : List CommandPrototype
  locations : ℕ → LocationInfo
  numbered : ∀ n, (locations n).line = some n
  logic : Logic
  accepted : Logic.fromPrototypes readers protos locations = .ok logic
  nested : WellNested protos

/-! ## Loading -/

section
variable {R : Readers} {protos : List CommandPrototype} {locations : ℕ → LocationInfo}

/-- what has been loaded when the first `n` prototypes have been read -/
structure Loaded (R : Readers) (protos : List CommandPrototype) (locations : ℕ → LocationInfo) (n : ℕ)
    (logic : Logic) : Prop where
  length : logic.commands.length = n
  locationsLength : logic.cmdLocationMap.length = n
  built : ∀ k c, logic.commands[k]? = some c → builtAt R locations protos k = some (.ok c)
  located : ∀ k, k < n → logic.cmdLocationMap[k]? = some (locations k)
  procedures : ∀ name st en, (name, st, en) ∈ logic.procedures →
    ∃ (k : ℕ) (cmd : Procedure), logic.commands[k]? = some (.procedure cmd) ∧ cmd.startLine = st ∧ cmd.endLine = en

theorem Loaded.default : Loaded R protos locations 0 Logic.default where
  length := rfl
  locationsLength := rfl
  built k c h := by simp [Logic.default] at h
  located k h := absurd h (Nat.not_lt_zero k)
  procedures name st en h := by simp [Logic.default] at h

theorem Loaded.add {n : ℕ} {logic : Logic} (h : Loaded R protos locations n logic) {command : Command}
    (hc : builtAt R locations protos n = some (.ok command)) :
    Loaded R protos locations (n + 1) (logic.add command (locations n)) where
  length := by simp [Logic.add, h.length]
  locationsLength := by simp [Logic.add, h.locationsLength]
  built k c hk := by
    rcases Nat.lt_or_ge k n with hlt | hge
    · rw [Logic.add_commands, List.getElem?_append_left (by rw [h.length]; exact hlt)] at hk
      exact h.built k c hk
    · rw [Logic.add_commands, List.getElem?_append_right (by rw [h.length]; exact hge), h.length,
        List.getElem?_singleton] at hk
      split_ifs at hk with hk0
      obtain rfl := Option.some.inj hk
      obtain rfl : k = n := by omega
      exact hc
  located k hk := by
    rcases Nat.lt_or_ge k n with hlt | hge
    · rw [Logic.add_cmdLocationMap, List.getElem?_append_left (by rw [h.locationsLength]; exact hlt)]
      exact h.located k hlt
    · obtain rfl : k = n := by omega
      rw [Logic.add_cmdLocationMap, List.getElem?_append_right (by rw [h.locationsLength]), h.locationsLength,
        Nat.sub_self]
      rfl
  procedures name st en hp := by
    have hold : ∀ k cmd, logic.commands[k]? = some cmd → (logic.commands ++ [command])[k]? = some cmd :=
      fun k cmd hk => by rw [List.getElem?_append_left (List.getElem?_eq_some_iff.mp hk).1, hk]
    have hrest : (name, st, en) ∈ logic.procedures → ∃ (k : ℕ) (cmd : Procedure),
        (logic.commands ++ [command])[k]? = some (.procedure cmd) ∧ cmd.startLine = st ∧ cmd.endLine = en := by
      intro hp
      obtain ⟨k, cmd, hk, hs, he⟩ := h.procedures name st en hp
      exact ⟨k, cmd, hold k _ hk, hs, he⟩
    rw [Logic.add_commands]
    cases command with
    | procedure cmd =>
      rcases List.mem_cons.mp hp with heq | hp
      · obtain ⟨rfl, rfl, rfl⟩ : name = cmd.name ∧ st = cmd.startLine ∧ en = cmd.endLine := by simpa using heq
        refine ⟨n, cmd, ?_, rfl, rfl⟩
        rw [List.getElem?_append_right (by rw [h.length]), h.length, Nat.sub_self]
        rfl
      · exact hrest hp
    | _ => exact hrest hp

theorem Loaded.load {rest : List CommandPrototype} {n : ℕ} {logic logic' : Logic}
    (h : Loaded R protos locations n logic) (hrest : protos.drop n = rest)
    (hl : Logic.load R protos locations rest n logic = .ok logic') :
    Loaded R protos locations protos.length logic' := by
  induction rest generalizing n logic with
  | nil =>
    obtain rfl := Except.ok.inj hl
    have hn : protos.length ≤ n := List.drop_eq_nil_iff.mp hrest
    obtain rfl : n = protos.length := by
      rcases Nat.eq_or_lt_of_le hn with heq | hlt
      · exact heq.symm
      · -- every line loaded is a prototype of the list
        have hsome : logic.commands[protos.length]? ≠ none := by
          rw [ne_eq, List.getElem?_eq_none_iff, h.length]
          omega
        obtain ⟨c, hc⟩ := Option.ne_none_iff_exists'.mp hsome
        have hb := h.built _ _ hc
        simp [builtAt] at hb
    exact h
  | cons proto rest ih =>
    obtain ⟨command, hc, hl⟩ := bind_eq_ok.mp hl
    have hproto : protos[n]? = some proto := by
      have := congrArg List.head? hrest
      rwa [List.head?_drop] at this
    refine ih (h.add (by rw [builtAt, hproto, Option.map_some, hc])) ?_ hl
    rw [← List.drop_drop, hrest, List.drop_one, List.tail_cons]

end

namespace Script

variable {s : Script} {n : ℕ} {c : Command}

theorem loaded (s : Script) : ∃ logic, Loaded s.readers s.protos s.locations s.protos.length logic ∧
    s.logic = { logic with states := ("_main", 0, logic.commands.length) :: logic.states } := by
  obtain ⟨logic, hl, h⟩ := bind_eq_ok.mp s.accepted
  exact ⟨logic, Loaded.default.load rfl hl, (Except.ok.inj h).symm⟩

theorem command_built (h : s.logic.commands[n]? = some c) :
    builtAt s.readers s.locations s.protos n = some (.ok c) := by
  obtain ⟨logic, hl, heq⟩ := s.loaded
  rw [heq] at h
  exact hl.built n c h

theorem line_lt (h : s.logic.commands[n]? = some c) : n < s.protos.length := by
  obtain ⟨logic, hl, heq⟩ := s.loaded
  rw [heq] at h
  exact hl.length ▸ (List.getElem?_eq_some_iff.mp h).1

theorem command_of_lt (h : n < s.protos.length) : ∃ c, s.logic.commands[n]? = some c := by
  obtain ⟨logic, hl, heq⟩ := s.loaded
  rw [heq]
  exact ⟨_, List.getElem?_eq_getElem (hl.length.symm ▸ h)⟩

theorem location_line (h : s.logic.commands[n]? = some c) : (s.logic.location n).line = some n := by
  obtain ⟨logic, hl, heq⟩ := s.loaded
  have hloc := hl.located n (line_lt h)
  rw [heq, Logic.location, hloc]
  exact s.numbered n

theorem procedure_command {name : String} {st en : ℕ} (h : (name, st, en) ∈ s.logic.procedures) :
    ∃ (k : ℕ) (cmd : Procedure),
      s.logic.commands[k]? = some (.procedure cmd) ∧ cmd.startLine = st ∧ cmd.endLine = en := by
  obtain ⟨logic, hl, heq⟩ := s.loaded
  rw [heq] at h ⊢
  exact hl.procedures name st en h

/-! ## Commands and marks -/

end Script

/-- what a command is to the nesting of blocks -/
def Command.mark : Command → Mark
  | .if_ _ => .opens true
  | .forIn _ | .loop _ | .procedure _ | .state _ | .component _ | .machine _ => .opens false
  | .else_ => .middle
  | .end_ => .closes
  | .oneLine _ | .registerVar _ | .call _ | .break_ => .plain

/-- the line a block's command stands on, as the command records it -/
def Command.StandsAt (n : ℕ) : Command → Prop
  | .if_ cmd => cmd.start = n
  | .forIn cmd => cmd.start = n
  | .loop cmd => cmd.start = n
  | .procedure cmd => cmd.startLine = n
  | .state cmd => cmd.startLine = n + 1
  | .component cmd => cmd.startLine = n + 1
  | .machine cmd => cmd.startLine = n + 1
  | _ => True

namespace BuiltBy

variable {R : Readers} {args : List String} {location : LocationInfo} {commands : List CommandPrototype}
  {name : String} {c : Command}

theorem mark_eq (h : BuiltBy R args location commands name c) : markOf name = c.mark := by
  cases h with
  | oneLine hn =>
    have hplain : ∀ name ∈ oneLineNames, markOf name = .plain := by decide
    exact hplain name hn
  | component hn | procedure hn | loop hn => rcases hn with rfl | rfl <;> rfl
  | _ => rfl

theorem standsAt {n : ℕ} (h : BuiltBy R args location commands name c) (hline : location.line = some n) :
    c.StandsAt n := by
  have hn : ∀ {k}, unwrap location.line = .ok k → k = n := fun hk => by
    rw [hline] at hk
    exact (Except.ok.inj hk).symm
  cases h with
  | if_ hc =>
    cases args with
    | nil => exact absurd hc (by rintro ⟨⟩)
    | cons arg rest =>
      obtain ⟨k, _, _, hk, rfl⟩ := Core.three_steps_eq_ok hc
      exact hn hk
  | forIn hc =>
    obtain ⟨k, _, _, hk, rfl⟩ := Core.three_steps_eq_ok hc
    exact hn hk
  | loop _ hc | procedure _ hc =>
    obtain ⟨k, _, _, hk, rfl⟩ := Core.three_steps_eq_ok hc
    exact hn hk
  | state hc | component _ hc =>
    obtain ⟨k, _, _, hk, rfl⟩ := Core.three_steps_eq_ok hc
    exact congrArg (· + 1) (hn hk)
  | machine hc =>
    obtain ⟨k, hk, hc⟩ := bind_eq_ok.mp hc
    obtain ⟨_, _, hc⟩ := bind_eq_ok.mp hc
    obtain rfl := Except.ok.inj hc
    exact congrArg (· + 1) (hn hk)
  | _ => trivial

end BuiltBy

namespace Script

variable {s : Script} {n : ℕ} {c : Command}

theorem builtBy (h : s.logic.commands[n]? = some c) :
    ∃ name args, nameAt s.protos n = some name ∧ BuiltBy s.readers args (s.locations n) s.protos name c := by
  have hb := command_built h
  unfold builtAt at hb
  rcases hn : s.protos[n]? with _ | ⟨_ | name, arguments, output⟩
  · simp [hn] at hb
  · simp [hn, Command.fromPrototype] at hb
  · rw [hn, Option.map_some] at hb
    exact ⟨name, _, by simp [nameAt, hn], fromPrototype_builtBy (Option.some.inj hb)⟩

theorem mark_command (h : s.logic.commands[n]? = some c) : mark s.protos n = c.mark := by
  obtain ⟨name, args, hn, hb⟩ := builtBy h
  rw [mark, hn]
  exact hb.mark_eq

theorem standsAt (h : s.logic.commands[n]? = some c) : c.StandsAt n := by
  obtain ⟨name, args, _, hb⟩ := builtBy h
  exact hb.standsAt (s.numbered n)

theorem end_of_closes (h : s.logic.commands[n]? = some c) (hm : mark s.protos n = .closes) : c = .end_ := by
  rw [mark_command h] at hm
  cases c <;> simp_all [Command.mark]

/-- the `end` of a block -/
theorem end_at {start : ℕ} {ms : List ℕ} {e : ℕ} (hb : Block (mark s.protos) start ms e) (hline : n = e) :
    s.logic.commands[n]? = some .end_ := by
  obtain ⟨f, _, hn⟩ := hb
  have hm : mark s.protos n = .closes := hline ▸ hn.closes_end (by simp)
  have hlt : n < s.protos.length := by
    by_contra hge
    have hnone : s.protos[n]? = none := List.getElem?_eq_none_iff.mpr (Nat.le_of_not_lt hge)
    simp [mark, nameAt, hnone] at hm
  obtain ⟨c, hc⟩ := command_of_lt hlt
  rw [hc, end_of_closes hc hm]

/-- where a block opens there is one -/
theorem block_of_opens (h : s.logic.commands[n]? = some c) {f : Bool} (hm : c.mark = .opens f) :
    ∃ ms e, Block (mark s.protos) n ms e := by
  have hopen := (mark_command h).trans hm
  obtain ⟨ms, e, hn, _⟩ := s.nested.block_inside (Nat.zero_le n) (line_lt h) hopen
  exact ⟨ms, e, f, hopen, hn⟩

/-- a procedure called is a block of the script, at the line it records -/
theorem procedure_line {name : String} {st en : ℕ} (h : (name, st, en) ∈ s.logic.procedures) :
    ∃ cmd : Procedure, s.logic.commands[st]? = some (.procedure cmd) ∧ cmd.endLine = en := by
  obtain ⟨k, cmd, hk, rfl, rfl⟩ := procedure_command h
  have hst : cmd.startLine = k := standsAt hk
  exact ⟨cmd, hst ▸ hk, rfl⟩

end Script

/-! ## One turn -/

section
variable {logic : Logic} {stop : ℕ} {c c' : Config} {w : World} {stack stack' : List CallInfo} {result : CommandResult}

/-- **One turn.** It ends the execution where it is, or executes the command at the line. -/
theorem step_cases (logic : Logic) (stop : ℕ) (c : Config) (w : World) :
    step logic stop c w = c.halt ∨
      ∃ command result stack, c.halted = false ∧ logic.commands[c.line]? = some command ∧
        command.execute logic w (logic.location c.line) c.stack = some (result, stack) ∧
        step logic stop c w = ⟨nextLine c.line result, stack, false⟩ := by
  unfold step
  cases hh : c.halted with
  | true => exact Or.inl (by simp [Config.halt, ← hh])
  | false =>
    cases hc : logic.commands[c.line]? with
    | none => exact Or.inl (by simp)
    | some command =>
      by_cases hstop : c.stack = [] ∧ stop ≤ c.line
      · exact Or.inl (by simp [hstop])
      · cases he : command.execute logic w (logic.location c.line) c.stack with
        | none => exact Or.inl (by simp [hstop, he])
        | some r =>
          obtain ⟨result, stack⟩ := r
          exact Or.inr ⟨command, result, stack, rfl, rfl, he, by simp [hstop, he]⟩

/-- a turn that executes a command goes on where the command says -/
theorem step_of_execute {command : Command} (hh : c.halted = false) (hc : logic.commands[c.line]? = some command)
    (hgoes : ¬ (c.stack = [] ∧ stop ≤ c.line))
    (he : command.execute logic w (logic.location c.line) c.stack = some (result, stack')) :
    step logic stop c w = ⟨nextLine c.line result, stack', false⟩ := by
  unfold step
  rw [hh, hc]
  simp only [hgoes, if_false, he]
  rfl

theorem push_eq_some {ci : CallInfo} (h : push stack ci = some stack') : stack' = ci :: stack := by
  unfold push at h
  split_ifs at h
  exact (Option.some.inj h).symm

theorem If.execute_cases {cmd : If} (h : cmd.execute w stack = some (result, stack')) :
    ∃ arr, elseLinesArr cmd.elseLines = some arr ∧
      ((cmd.condition.evaluate w = some true ∧ result = .continue_ ∧ stack' =
          .ifElse ⟨cmd.elseLines.head?.getD cmd.end_, true, 0, ⟨cmd.start, cmd.end_, arr⟩⟩ :: stack) ∨
        (cmd.condition.evaluate w = some false ∧ cmd.elseLines = [] ∧ result = .jumpToLine (cmd.end_ + 1) ∧
          stack' = stack) ∨
        ∃ m, cmd.condition.evaluate w = some false ∧ cmd.elseLines.head? = some m ∧ result = .jumpToLine m ∧
          stack' = .ifElse ⟨m, false, 0, ⟨cmd.start, cmd.end_, arr⟩⟩ :: stack) := by
  simp only [If.execute, Option.bind_eq_bind, Option.bind_eq_some_iff] at h
  obtain ⟨arr, ha, b, hb, h⟩ := h
  refine ⟨arr, ha, ?_⟩
  cases b with
  | true =>
    obtain ⟨pushed, hp, h⟩ := Option.bind_eq_some_iff.mp h
    obtain ⟨rfl, rfl⟩ : CommandResult.continue_ = result ∧ pushed = stack' := by simpa using h
    exact Or.inl ⟨hb, rfl, push_eq_some hp⟩
  | false =>
    cases hl : cmd.elseLines with
    | nil =>
      rw [hl] at h
      obtain ⟨rfl, rfl⟩ : CommandResult.jumpToLine (cmd.end_ + 1) = result ∧ stack = stack' := by simpa using h
      exact Or.inr (Or.inl ⟨hb, rfl, rfl, rfl⟩)
    | cons m ms =>
      rw [hl] at h
      obtain ⟨pushed, hp, h⟩ := Option.bind_eq_some_iff.mp h
      obtain ⟨rfl, rfl⟩ : CommandResult.jumpToLine m = result ∧ pushed = stack' := by simpa using h
      exact Or.inr (Or.inr ⟨m, hb, rfl, rfl, push_eq_some hp⟩)

theorem Call.execute_cases {cmd : Call} {location : LocationInfo} {line : ℕ} (hline : location.line = some line)
    (h : cmd.execute logic location stack = some (result, stack')) :
    ∃ lines, logic.procedures.lookup cmd.procName = some lines ∧ result = .jumpToLine (lines.1 + 1) ∧
      stack' = .procedure ⟨line, lines.1, lines.2⟩ :: stack := by
  simp only [Call.execute, hline, Option.bind_eq_bind, Option.bind_eq_some_iff] at h
  obtain ⟨lines, hl, pushed, hp, h⟩ := h
  obtain ⟨rfl, rfl⟩ : CommandResult.jumpToLine (lines.1 + 1) = result ∧ pushed = stack' := by simpa using h
  exact ⟨lines, hl, rfl, push_eq_some hp⟩

/-- `end` with the frame of a call on top -/
theorem End.execute_procedure {location : LocationInfo} {line : ℕ} (hline : location.line = some line)
    {ci : ProcedureCallInfo} (h : End.execute location (.procedure ci :: stack) = some (result, stack')) :
    result = (if ci.endLine = line then .jumpToLine (ci.callLine + 1) else .continue_) ∧ stack' = stack := by
  simp only [End.execute, hline, Option.bind_eq_bind, Option.bind_some] at h
  by_cases hl : ci.endLine = line
  · rw [if_pos hl] at h ⊢
    obtain ⟨rfl, rfl⟩ := Prod.mk.inj (Option.some.inj h)
    exact ⟨rfl, rfl⟩
  · rw [if_neg hl] at h ⊢
    obtain ⟨rfl, rfl⟩ := Prod.mk.inj (Option.some.inj h)
    exact ⟨rfl, rfl⟩

theorem ForInCallInfo.next_cases {ci : ForInCallInfo} {rest : List CallInfo} {result : CommandResult}
    (h : ci.next rest = some (result, stack')) :
    result = .jumpToLine (ci.start + 1) ∧ stack' = .forIn { ci with iteration := ci.iteration + 1 } :: rest := by
  unfold ForInCallInfo.next at h
  split at h
  · obtain ⟨_, _, h⟩ := Option.bind_eq_some_iff.mp h
    exact ⟨(Prod.mk.inj (Option.some.inj h)).1.symm, (Prod.mk.inj (Option.some.inj h)).2.symm⟩
  · exact absurd h (by simp)
  · exact ⟨(Prod.mk.inj (Option.some.inj h)).1.symm, (Prod.mk.inj (Option.some.inj h)).2.symm⟩

theorem Loop.execute_cases {cmd : Loop} (h : cmd.executeLoc stack = some (result, stack')) :
    result = .continue_ ∧ stack' = .loop ⟨cmd.start, cmd.end_⟩ :: stack := by
  obtain ⟨pushed, hp, h⟩ := Option.bind_eq_some_iff.mp h
  obtain ⟨rfl, rfl⟩ : CommandResult.continue_ = result ∧ pushed = stack' := by simpa using h
  exact ⟨rfl, push_eq_some hp⟩

theorem ComponentBlock.execute_cases {cmd : ComponentBlock} (h : cmd.execute stack = some (result, stack')) :
    result = .continue_ ∧ stack' = .component ⟨cmd.name, [], cmd.startLine, cmd.endLine⟩ :: stack := by
  obtain ⟨pushed, hp, h⟩ := Option.bind_eq_some_iff.mp h
  obtain ⟨rfl, rfl⟩ : CommandResult.continue_ = result ∧ pushed = stack' := by simpa using h
  exact ⟨rfl, push_eq_some hp⟩

end

end BigWorlds.Machine
