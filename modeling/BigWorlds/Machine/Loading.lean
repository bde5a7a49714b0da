/-
Loading scripts (`Logic::from_script`), from their text on.

What the parser and the preprocessor return is unwrapped, so an error of theirs is a panic; the only errors that loading
returns are those of commands that are refused.

- `Logic.fromScript`: the parser, the preprocessor and the commands, one after the other;
- `Loadable`: the lines of a text are read, its directives are run, and its commands are made;
- `Logic.fromScript_total_iff`: loading ends on every text, and returns exactly on those that are loadable;
- `loading_panics`: a value in quotes, a character that is not ASCII, an include and a `print` of nothing.
-/
import BigWorlds.Machine.Construction
import BigWorlds.Machine.Lexer
import BigWorlds.Machine.Preprocessor
import BigWorlds.Machine.Safety

namespace BigWorlds.Machine

variable (L : Libraries)

/-! ## From a text to logic -/

/-- the commands among the instructions -/
def commandsOf (instructions : List Instruction) : List (CommandPrototype × LocationInfo) :=
  instructions.filterMap fun instruction =>
    match instruction.type_ with
    | .command proto => some (proto, instruction.location)
    | _ => none

/-- `cmd_locations`, with the index of the command, and with the path of the script if there is one -/
def cmdLocations (path : Option String) (commands : List (CommandPrototype × LocationInfo)) (n : ℕ) : LocationInfo :=
  let location := (commands[n]?.map Prod.snd).getD .empty
  { location with line := some n, source := path.or location.source }

/-- the logic of the commands among the instructions -/
def Logic.fromInstructions (path : Option String) (instructions : List Instruction) : Except Failure Logic :=
  Logic.fromPrototypes L.readers ((commandsOf instructions).map Prod.fst) (cmdLocations path (commandsOf instructions))

/-- `Logic::from_script`, none if a loop of the preprocessor takes more turns -/
def Logic.fromScript (text : String) (path : Option String) (turns : ℕ) : Option (Except Failure Logic) :=
  match parseScript L text .empty with
  | .error _ => some (.error .panic)
  | .ok instructions =>
    match preprocess noData turns instructions with
    | none => none
    | some (.error _) => some (.error .panic)
    | some (.ok instructions) => some (Logic.fromInstructions L path instructions)

/-- loading ends with the result, in some number of turns or less -/
def Logic.Ends (text : String) (path : Option String) (r : Except Failure Logic) : Prop :=
  ∃ n, ∀ turns ≥ n, Logic.fromScript L text path turns = some r

/-- the lines of the text are read, its directives are run, and none of its commands panics when it is made -/
def Loadable (text : String) (path : Option String) : Prop :=
  ∃ instructions, lexScript L text .empty = some instructions ∧ Preprocessable instructions ∧
    CommandsTotal L ((commandsOf (kept .outside instructions)).map Prod.fst)
      (cmdLocations path (commandsOf (kept .outside instructions)))

/-! ## Instructions from a text -/

section
variable {L} {location : LocationInfo} {instructions : List Instruction}

theorem lexCommand_no_directive {cs : List Char} {l : Lexed} (h : lexCommand L cs = some l) (d : DirectivePrototype) :
    l.type_ ≠ .directive d := by
  obtain ⟨⟨tag, place⟩, _, h⟩ := Option.bind_eq_some_iff.mp h
  obtain ⟨⟨output, name, place⟩, _, h⟩ := Option.bind_eq_some_iff.mp h
  obtain ⟨arguments, _, h⟩ := Option.bind_eq_some_iff.mp h
  split_ifs at h <;> obtain rfl := Option.some.inj h <;> simp

theorem lexLine_named {line : List Char} {l : Lexed} (h : lexLine L line = some l) {d : DirectivePrototype}
    (hd : l.type_ = .directive d) : d.name ≠ none := by
  unfold lexLine at h
  split_ifs at h
  · obtain rfl := Option.some.inj h
    exact absurd hd (by simp)
  · obtain ⟨⟨name, place⟩, _, h⟩ := Option.bind_eq_some_iff.mp h
    obtain ⟨arguments, _, h⟩ := Option.bind_eq_some_iff.mp h
    obtain rfl := Option.some.inj h
    obtain rfl := InstructionType.directive.inj hd
    simp
  · exact absurd hd (lexCommand_no_directive h d)

theorem exists_of_mem_mapM {α β : Type} {f : α → Option β} {l : List α} {bs : List β} (h : l.mapM f = some bs) {b : β}
    (hb : b ∈ bs) : ∃ a ∈ l, f a = some b := by
  induction l generalizing bs with
  | nil =>
    obtain rfl : bs = [] := by simpa using h.symm
    exact absurd hb List.not_mem_nil
  | cons a l ih =>
    rw [List.mapM_cons] at h
    obtain ⟨b', hb', h⟩ := Option.bind_eq_some_iff.mp h
    obtain ⟨bs', hbs', h⟩ := Option.bind_eq_some_iff.mp h
    obtain rfl := Option.some.inj h
    rcases List.mem_cons.mp hb with rfl | hb
    · exact ⟨a, List.mem_cons_self, hb'⟩
    · obtain ⟨a', ha', hb⟩ := ih hbs' hb
      exact ⟨a', List.mem_cons_of_mem a ha', hb⟩

theorem fromText_lexScript {text : String} (hsource : location.source = none)
    (h : lexScript L text location = some instructions) : FromText instructions := by
  obtain ⟨lines, _, hlines⟩ := Option.bind_eq_some_iff.mp h
  have hread : ∀ i ∈ instructions, ∃ n line l, lexLine L line = some l ∧
      i = Lexed.at { location with sourceLine := some n } l := by
    intro i hi
    obtain ⟨⟨n, line⟩, _, hline⟩ := exists_of_mem_mapM hlines hi
    obtain ⟨l, hl, rfl⟩ := Option.map_eq_some_iff.mp hline
    exact ⟨n, line, l, hl, rfl⟩
  constructor
  · intro i hi
    obtain ⟨n, line, l, _, rfl⟩ := hread i hi
    exact hsource
  · intro i hi d hd
    obtain ⟨n, line, l, hl, rfl⟩ := hread i hi
    exact lexLine_named hl hd

theorem commandsOf_eliminateDirectives (instructions : List Instruction) :
    commandsOf (eliminateDirectives instructions) = commandsOf instructions := by
  unfold commandsOf eliminateDirectives
  rw [List.filterMap_filter]
  refine List.filterMap_congr fun i _ => ?_
  unfold Instruction.isDirective
  cases i.type_ <;> rfl

theorem fromInstructions_eliminateDirectives (path : Option String) (instructions : List Instruction) :
    Logic.fromInstructions L path (eliminateDirectives instructions) = Logic.fromInstructions L path instructions := by
  unfold Logic.fromInstructions
  rw [commandsOf_eliminateDirectives]

end

/-! ## Loading a text -/

section
variable {L} {text : String} {path : Option String} {instructions : List Instruction} {turns : ℕ}

/-- loading a text whose lines are not read -/
theorem fromScript_unread (h : lexScript L text .empty = none) :
    Logic.fromScript L text path turns = some (.error .panic) := by
  have hparse : (parseScript L text .empty).toOption = lexScript L text .empty := parseScript_toOption L text rfl
  rw [h] at hparse
  unfold Logic.fromScript
  cases hread : parseScript L text .empty with
  | error e => rfl
  | ok instructions =>
    rw [hread] at hparse
    cases hparse

/-- loading a text whose lines are read, once the turns are enough -/
theorem fromScript_read (h : lexScript L text .empty = some instructions) (hturns : enoughTurns instructions ≤ turns) :
    (Preprocessable instructions →
      Logic.fromScript L text path turns = some (Logic.fromInstructions L path (kept .outside instructions))) ∧
    (¬ Preprocessable instructions → Logic.fromScript L text path turns = some (.error .panic)) := by
  have hparse : (parseScript L text .empty).toOption = lexScript L text .empty := parseScript_toOption L text rfl
  obtain ⟨r, hr, hok⟩ := preprocess_iff (fromText_lexScript rfl h) hturns
  rw [h] at hparse
  unfold Logic.fromScript
  cases hread : parseScript L text .empty with
  | error e =>
    rw [hread] at hparse
    cases hparse
  | ok read =>
    rw [hread] at hparse
    obtain rfl : read = instructions := Option.some.inj hparse
    dsimp only
    rw [hr]
    constructor
    · intro hpre
      rw [(hok _).mpr ⟨hpre, rfl⟩]
      exact congrArg some (fromInstructions_eliminateDirectives path _)
    · intro hpre
      cases r with
      | error e => rfl
      | ok out => exact absurd ((hok out).mp rfl).1 hpre

/-- more turns than it takes change nothing -/
theorem fromScript_mono {turns' : ℕ} {r : Except Failure Logic} (h : Logic.fromScript L text path turns = some r)
    (hle : turns ≤ turns') : Logic.fromScript L text path turns' = some r := by
  unfold Logic.fromScript at h ⊢
  cases hparse : parseScript L text .empty with
  | error e =>
    rw [hparse] at h
    exact h
  | ok instructions =>
    rw [hparse] at h
    dsimp only at h ⊢
    cases hpre : preprocess noData turns instructions with
    | none =>
      rw [hpre] at h
      exact absurd h (by simp)
    | some out =>
      rw [hpre] at h
      rw [preprocess_mono hpre hle]
      exact h

theorem Logic.ends_iff {r : Except Failure Logic} :
    Logic.Ends L text path r ↔ ∃ turns, Logic.fromScript L text path turns = some r :=
  ⟨fun ⟨n, h⟩ => ⟨n, h n (Nat.le_refl n)⟩, fun ⟨n, h⟩ => ⟨n, fun _ hle => fromScript_mono h hle⟩⟩

end

/-- **Loading is total exactly on loadable texts.** The loops of the preprocessor end on every text, and loading returns
logic or an error exactly if the text is loadable; else it panics. -/
theorem Logic.fromScript_total_iff (text : String) (path : Option String) :
    ∃ r, Logic.Ends L text path r ∧ (r ≠ .error .panic ↔ Loadable L text path) := by
  cases hlex : lexScript L text .empty with
  | none =>
    refine ⟨.error .panic, ⟨0, fun turns _ => fromScript_unread hlex⟩, fun h => absurd rfl h, ?_⟩
    intro ⟨instructions, hread, _⟩
    exact absurd (hlex.symm.trans hread) (by simp)
  | some instructions =>
    have hloadable : Loadable L text path ↔ Preprocessable instructions ∧
        CommandsTotal L ((commandsOf (kept .outside instructions)).map Prod.fst)
          (cmdLocations path (commandsOf (kept .outside instructions))) := by
      unfold Loadable
      simp only [hlex, Option.some.injEq, exists_eq_left']
    rw [hloadable]
    by_cases hpre : Preprocessable instructions
    · refine ⟨Logic.fromInstructions L path (kept .outside instructions), ⟨enoughTurns instructions, ?_⟩, ?_⟩
      · exact fun turns hturns => (fromScript_read hlex hturns).1 hpre
      · rw [and_iff_right hpre]
        exact load_total_iff L fun n => rfl
    · refine ⟨.error .panic, ⟨enoughTurns instructions, ?_⟩, fun h => absurd rfl h, fun h => absurd h.1 hpre⟩
      exact fun turns hturns => (fromScript_read hlex hturns).2 hpre

/-- a value in quotes is refused and the refusal unwrapped, an accent is one character of two bytes, an include needs
the path of the script, and `print` reads its first argument -/
theorem loading_panics :
    Logic.Ends bareLibraries "\"x\"" none (.error .panic) ∧ Logic.Ends bareLibraries "é" none (.error .panic) ∧
      Logic.Ends bareLibraries "!include a" none (.error .panic) ∧
      Logic.Ends bareLibraries "print" none (.error .panic) := by
  refine ⟨⟨0, fun turns _ => ?_⟩, ⟨0, fun turns _ => ?_⟩, ⟨2, fun turns hturns => ?_⟩, ⟨2, fun turns hturns => ?_⟩⟩
  · exact fromScript_unread (by decide)
  · exact fromScript_unread (by decide)
  · have hread : lexScript bareLibraries "!include a" .empty =
        some [⟨{ LocationInfo.empty with sourceLine := some 1 }, .directive ⟨some "include", some ["a"]⟩⟩] := by decide
    refine (fromScript_read hread hturns).2 fun h => ?_
    exact absurd (h.noIncludes _ List.mem_cons_self) (by decide)
  · have hread : lexScript bareLibraries "print" .empty =
        some [⟨{ LocationInfo.empty with sourceLine := some 1 }, .command ⟨some "print", some [], none⟩⟩] := by decide
    have hpre : Preprocessable [⟨{ LocationInfo.empty with sourceLine := some 1 },
        .command ⟨some "print", some [], none⟩⟩] := ⟨by decide, trivial, fun i hi => ?_⟩
    · exact ((fromScript_read hread hturns).1 hpre).trans (by decide)
    · obtain rfl := List.mem_singleton.mp hi
      trivial

/-- what is loaded is a script whose commands are numbered and accepted -/
theorem LoadedScript.of_fromScript {text : String} {path : Option String} {turns : ℕ} {logic : Logic}
    (h : Logic.fromScript L text path turns = some (.ok logic)) : ∃ s : LoadedScript L, s.logic = logic := by
  unfold Logic.fromScript at h
  split at h
  · cases h
  · split at h
    · cases h
    · cases h
    · exact ⟨⟨_, _, fun _ => rfl, logic, Option.some.inj h⟩, rfl⟩

end BigWorlds.Machine
