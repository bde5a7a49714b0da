/-
When making a command from its arguments panics (`Command::from_prototype` and the constructors in `machine/cmd/`).

Constructors index their arguments, unwrap what libraries make of them, and read types of variables by name. Each has its
own condition, `Total`, under which it returns a command or an error. A check that comes first and fails keeps what
comes after it from being reached, so the conditions follow the order of the checks.

- `fromPrototype_total_iff`: making a command does not panic exactly under the condition of its name;
- `load_total_iff`: loading commands does not panic exactly if none does up to the first one that is refused.
-/
import BigWorlds.Machine.Actions
import BigWorlds.Machine.Resolution

namespace BigWorlds.Machine

open BigWorlds.Core (split cut)

variable (L : Libraries)

/-! ## Addresses -/

/-- a text of four parts has the name of a type in the third -/
def AddressTotal (s : String) : Prop :=
  ∀ entity comp varType varName, split '.' s = [entity, comp, varType, varName] →
    ∃ t, VarType.fromStr varType = some t

/-- a text of two or three parts has the name of a type in the last but one -/
def ShortLocalAddressTotal (s : String) : Prop :=
  (∀ varType varName, split '.' s = [varType, varName] → ∃ t, VarType.fromStr varType = some t) ∧
    ∀ comp varType varName, split '.' s = [comp, varType, varName] → ∃ t, VarType.fromStr varType = some t

/-! ## Commands on one line -/

/-- the pairs of braces that are taken out of a format in at most `k` turns -/
def PrintFmt.placeholders : (k : ℕ) → List Char → ℕ
  | 0, _ => 0
  | k + 1, fmt =>
    match cut ['{', '}'] fmt with
    | none => 0
    | some (before, after) => placeholders k (before ++ after) + 1

/-- there is an argument; if it is no address, those for its placeholders are read -/
def PrintFmt.Total (args : List String) : Prop :=
  ∀ matched, L.getopts [] args = .ok matched → ∃ first, matched.free[0]? = some first ∧ AddressTotal first ∧
    ((∃ addr, Address.fromStr first = .ok addr) ∨
      ∀ i < PrintFmt.placeholders first.length first.toList, ∀ s, matched.free[1 + i]? = some s → AddressTotal s)

/-- the output is read -/
def Set.OutTotal (args : List String) : Prop := ∀ s, Set.outAddr args = some s → ShortLocalAddressTotal s

/-- a source is an address, or of a type that values are read of -/
def Set.SourceTotal (args : List String) (target : Target) (s : String) : Prop :=
  if separatorSymbol ∈ s.toList then (∃ source, Target.ofParts (split separatorSymbol s) = some source) ∧ OutTotal args
  else
    match Var.fromStrTyped L.parseFloat s target.varType with
    | .ok _ => OutTotal args
    | .error .invalid => True
    | .error .panic => False

/-- there is a target; if it has parts it is an address, and what it is set to is there and read -/
def Set.Total (args : List String) : Prop :=
  ∃ first, args[0]? = some first ∧ (separatorSymbol ∈ first.toList →
    ∃ target, Target.ofParts (split separatorSymbol first) = some target ∧
      ∃ s, Set.sourceStr args = .ok s ∧ SourceTotal L args target s)

/-- the output is read, and if it is an address there are as many arguments as there are names -/
def Spawn.Total (args : List String) : Prop :=
  ∀ matched, L.getopts [("o", "out")] args = .ok matched →
    (∀ s, (matched.values "out").head? = some s → ShortLocalAddressTotal s) ∧
      ((∀ s, (matched.values "out").head? = some s → ∃ addr, ShortLocalAddress.fromStr s = .ok addr) →
        matched.free.length ≤ 2 → matched.free.length ≤ args.length)

/-- the arguments are read, up to the first that is no address -/
def Eval.ArgumentsTotal : List String → Prop
  | [] => True
  | arg :: rest =>
    match split '=' arg with
    | [_, addr] => AddressTotal addr ∧ ((∃ a, Address.fromStr addr = .ok a) → ArgumentsTotal rest)
    | _ => ArgumentsTotal rest

/-- the output is read, and if it is an address the arguments are, and if these are there is an expression -/
def Eval.Total (args : List String) : Prop :=
  ∀ matched, L.getopts [("o", "out")] args = .ok matched →
    (∀ s, (matched.values "out").head? = some s → AddressTotal s) ∧
      ((∀ s, (matched.values "out").head? = some s → ∃ addr, Address.fromStr s = .ok addr) →
        matched.free ≠ [] ∧ Eval.ArgumentsTotal matched.free.tail)

/-- there is a name, and what is set is an address and a value with an equals sign between them -/
def RegisterEntityPrefab.Total (args : List String) : Prop :=
  ∀ matched, L.getopts [("c", "component"), ("", "set")] args = .ok matched →
    args ≠ [] ∧ ∀ s ∈ matched.values "set", ∃ a b, cut ['='] s.toList = some (a, b) ∧
      (∃ addr, LocalAddress.fromStr (String.ofList a) = .ok addr) ∧ ∃ v, Var.fromStrUntyped (String.ofList b) = .ok v

/-- the options are read, and so is the variable, if there is one -/
def RegisterVar.Total (args : List String) : Prop :=
  ∃ matched, L.getopts [("", "default")] args = .ok matched ∧ ∀ first ∈ matched.free.head?, ShortLocalAddressTotal first

def OneLine.Total (cmd : OneLine) : Prop :=
  match cmd.name with
  | "print" => PrintFmt.Total L cmd.arguments
  | "set" => Set.Total L cmd.arguments
  | "spawn" => Spawn.Total L cmd.arguments
  | "entity" | "prefab" => RegisterEntityPrefab.Total L cmd.arguments
  | "trigger" | "triggered_by" | "goto" => cmd.arguments ≠ []
  | "eval" => Eval.Total L cmd.arguments
  | _ => True

/-! ## Blocks -/

/-- the search finds an end -/
def EndFound (location : LocationInfo) (commands : List CommandPrototype) (d : Defs) : Prop :=
  ∃ line positions, location.line = some line ∧ commandSearch commands (line + 1) d true = .ok (some positions)

/-- a condition of one part is an address; one that compares is one with something; there is no other of one part -/
def Condition.Total (arg : String) (rest : List String) : Prop :=
  if rest = [] ∧ separatorSymbol ∈ arg.toList then ∃ addr, Address.fromStr arg = .ok addr
  else rest ≠ [] ∧ (rest[0]? = some "==" →
    AddressTotal arg ∧ ((∃ addr, Address.fromStr arg = .ok addr) → 2 ≤ rest.length))

def If.Total (args : List String) (location : LocationInfo) (commands : List CommandPrototype) : Prop :=
  ∀ arg rest, args = arg :: rest → EndFound location commands If.defs → Condition.Total arg rest

def Loop.Total (args : List String) (location : LocationInfo) (commands : List CommandPrototype) : Prop :=
  EndFound location commands Loop.defs → ∀ arg ∈ args.head?, arg = "true" ∨ arg = "false"

/-- the variable is read, or the line can be quoted; and if the variable is an address, the target is read, if it is there -/
def ForIn.Total (args : List String) (location : LocationInfo) : Prop :=
  match args[0]? with
  | none => ∃ line source text,
      location.sourceLine = some line ∧ location.source = some source ∧ L.quoteLine source line = some text
  | some arg => ShortLocalAddressTotal arg ∧ ((∃ addr, ShortLocalAddress.fromStr arg = .ok addr) →
      ∀ target, args[2]? = some target → ShortLocalAddressTotal target)

/-- a block that is named has a name -/
def NameTotal (args : List String) (location : LocationInfo) (commands : List CommandPrototype) (d : Defs) : Prop :=
  EndFound location commands d → args ≠ []

/-- making the command does not panic -/
def CommandPrototype.Total (proto : CommandPrototype) (location : LocationInfo) (commands : List CommandPrototype) :
    Prop :=
  let args := proto.arguments.getD []
  match proto.name with
  | none => True
  | some name =>
    if name ∈ oneLineNames then OneLine.Total L ⟨name, args⟩
    else if name = "var" then RegisterVar.Total L args
    else if name = "machine" then True
    else if name = "component" ∨ name = "comp" then NameTotal args location commands ComponentBlock.defs
    else if name = "state" then NameTotal args location commands State.defs
    else if name = "if" then If.Total args location commands
    else if name = "else" then True
    else if name = "proc" ∨ name = "procedure" then NameTotal args location commands Procedure.defs
    else if name = "call" then args ≠ []
    else if name = "end" then True
    else if name = "for" then ForIn.Total L args location
    else if name = "loop" ∨ name = "while" then Loop.Total args location commands
    else True

/-! ## Panics -/

/-- an error that is a panic is none -/
def Calm {α : Type} (x : Except Failure α) : Prop := x ≠ .error .panic

section
variable {α β : Type}

@[simp] theorem calm_ok (a : α) : Calm (.ok a : Except Failure α) := fun h => absurd h (by simp)

@[simp] theorem calm_error (location : LocationInfo) (kind : ErrorKind) :
    Calm (.error (.error location kind) : Except Failure α) := fun h => absurd h (by simp)

@[simp] theorem not_calm_panic : ¬ Calm (.error .panic : Except Failure α) := fun h => h rfl

theorem calm_bind_iff {x : Except Failure α} {f : α → Except Failure β} :
    Calm (x >>= f) ↔ Calm x ∧ ∀ a, x = .ok a → Calm (f a) := by
  cases x with
  | ok a =>
    refine ⟨fun h => ⟨calm_ok a, fun a' ha => ?_⟩, fun h => h.2 a rfl⟩
    obtain rfl := Except.ok.inj ha
    exact h
  | error e =>
    refine ⟨fun h => ⟨fun he => h ?_, fun a ha => absurd ha (by simp)⟩, fun h he => h.1 ?_⟩
    · rw [Except.error.inj he]
      rfl
    · rw [Except.error.inj he]

@[simp] theorem calm_ok_bind_iff {a : α} {f : α → Except Failure β} :
    Calm ((.ok a : Except Failure α) >>= f) ↔ Calm (f a) := Iff.rfl

@[simp] theorem not_calm_panic_bind {f : α → Except Failure β} :
    ¬ Calm ((.error .panic : Except Failure α) >>= f) := fun h => h rfl

theorem calm_return_iff {x : Except Failure α} {f : α → β} : Calm (do return f (← x)) ↔ Calm x :=
  Iff.trans calm_bind_iff (and_iff_left fun _ _ => calm_ok _)

theorem calm_unwrap_iff {o : Option α} : Calm (unwrap o) ↔ ∃ a, o = some a := by
  cases o <;> simp

end

/-! ## Addresses are read -/

theorem read_ne_panic_iff {varType : String} {α : Type} {f : VarType → α} :
    (do return f (← VarType.read varType) : Except AddressFailure α) ≠ .error .panic ↔
      ∃ t, VarType.fromStr varType = some t := by
  unfold VarType.read
  cases VarType.fromStr varType with
  | none => exact ⟨fun h => absurd rfl h, fun ⟨_, h⟩ => absurd h (by simp)⟩
  | some t => exact ⟨fun _ => ⟨t, rfl⟩, fun _ h => absurd h (by rintro ⟨⟩)⟩

theorem addressTotal_iff (s : String) : Address.fromStr s ≠ .error .panic ↔ AddressTotal s := by
  unfold Address.fromStr AddressTotal
  split
  · rename_i entity comp varType varName hsplit
    rw [read_ne_panic_iff]
    constructor
    · intro h entity' comp' varType' varName' heq
      obtain ⟨rfl, rfl, rfl, rfl⟩ : entity = entity' ∧ comp = comp' ∧ varType = varType' ∧ varName = varName' := by
        simpa [hsplit] using heq
      exact h
    · exact fun h => h entity comp varType varName hsplit
  · rename_i hsplit
    refine ⟨fun _ entity comp varType varName heq => absurd heq (hsplit entity comp varType varName), fun _ h => ?_⟩
    exact absurd h (by simp)

theorem shortLocalAddressTotal_iff (s : String) :
    ShortLocalAddress.fromStr s ≠ .error .panic ↔ ShortLocalAddressTotal s := by
  unfold ShortLocalAddress.fromStr ShortLocalAddressTotal
  split
  · rename_i varType varName hsplit
    rw [read_ne_panic_iff, hsplit]
    constructor
    · intro h
      refine ⟨fun varType' varName' heq => ?_, fun _ _ _ heq => absurd heq (by simp)⟩
      obtain ⟨rfl, rfl⟩ : varType = varType' ∧ varName = varName' := by simpa using heq
      exact h
    · exact fun h => h.1 varType varName rfl
  · rename_i comp varType varName hsplit
    rw [read_ne_panic_iff, hsplit]
    constructor
    · intro h
      refine ⟨fun _ _ heq => absurd heq (by simp), fun comp' varType' varName' heq => ?_⟩
      obtain ⟨rfl, rfl, rfl⟩ : comp = comp' ∧ varType = varType' ∧ varName = varName' := by simpa using heq
      exact h
    · exact fun h => h.2 comp varType varName rfl
  · rename_i htwo hthree
    refine ⟨fun _ => ⟨fun varType varName heq => absurd heq (htwo varType varName),
      fun comp varType varName heq => absurd heq (hthree comp varType varName)⟩, fun _ h => absurd h (by simp)⟩

/-- an error of an address becomes one of the machine -/
theorem calm_addressResult_iff {α : Type} {x : Except AddressFailure α} :
    Calm (addressResult x) ↔ x ≠ .error .panic := by
  cases x with
  | ok a => simp [addressResult]
  | error e => cases e <;> simp [addressResult]

theorem addressResult_eq_ok_iff {α : Type} {x : Except AddressFailure α} {a : α} :
    addressResult x = .ok a ↔ x = .ok a := by
  cases x with
  | ok a => simp [addressResult]
  | error e => cases e <;> simp [addressResult]

theorem calm_map_iff {α β : Type} {x : Except Failure α} {f : α → β} : Calm (x.map f) ↔ Calm x := by
  cases x with
  | ok a => simp [Except.map]
  | error e => cases e <;> simp [Except.map]

theorem parseAt_eq_ok_iff {location : LocationInfo} {options : List (String × String)} {args : List String}
    {matched : Matches} : L.parseAt location options args = .ok matched ↔ L.getopts options args = .ok matched := by
  unfold Libraries.parseAt
  cases L.getopts options args <;> simp

theorem calm_parseAt (location : LocationInfo) (options : List (String × String)) (args : List String) :
    Calm (L.parseAt location options args) := by
  unfold Libraries.parseAt
  cases L.getopts options args <;> simp

/-- going on with the options that were given -/
theorem calm_parse_bind_iff {β : Type} {location : LocationInfo} {options : List (String × String)}
    {args : List String} {f : Matches → Except Failure β} :
    Calm (L.parseAt location options args >>= f) ↔ ∀ matched, L.getopts options args = .ok matched → Calm (f matched) := by
  rw [calm_bind_iff, and_iff_right (calm_parseAt L location options args)]
  simp only [parseAt_eq_ok_iff]

section
variable {α β : Type} {fromStr : String → Except AddressFailure α} {o : Option String}

theorem calm_optionalAddress_iff :
    Calm (optionalAddress fromStr o) ↔ ∀ s, o = some s → fromStr s ≠ .error .panic := by
  cases o with
  | none => simp [optionalAddress]
  | some s => simp [optionalAddress, calm_map_iff, calm_addressResult_iff]

theorem optionalAddress_ok_iff : (∃ a, optionalAddress fromStr o = .ok a) ↔ ∀ s, o = some s → ∃ a, fromStr s = .ok a := by
  cases o with
  | none => simp [optionalAddress]
  | some s =>
    simp only [optionalAddress, Option.some.injEq, forall_eq']
    cases fromStr s with
    | ok a => simp [addressResult, Except.map]
    | error e => cases e <;> simp [addressResult, Except.map]

end

/-! ## Commands on one line do not panic -/

theorem Eval.arguments_total_iff (args : List String) : Calm (Eval.arguments args) ↔ Eval.ArgumentsTotal args := by
  induction args with
  | nil => exact ⟨fun _ => trivial, fun _ => calm_ok _⟩
  | cons arg rest ih =>
    have hpair : ∀ name addr, Calm (do
        let addr ← addressResult (Address.fromStr addr)
        let rest ← Eval.arguments rest
        return (name, addr) :: rest : Except Failure (List (String × Address))) ↔
          AddressTotal addr ∧ ((∃ a, Address.fromStr addr = .ok a) → Eval.ArgumentsTotal rest) := by
      intro name addr
      rw [calm_bind_iff, calm_addressResult_iff, addressTotal_iff]
      refine and_congr Iff.rfl ?_
      simp only [addressResult_eq_ok_iff, calm_bind_iff, ih]
      constructor
      · intro h ⟨a, ha⟩
        exact (h a ha).1
      · intro h a ha
        exact ⟨h ⟨a, ha⟩, fun _ _ => calm_ok _⟩
    rw [Eval.arguments, Eval.ArgumentsTotal]
    rcases hsplit : split '=' arg with _ | ⟨name, _ | ⟨addr, _ | ⟨_, _⟩⟩⟩
    · exact ih
    · exact ih
    · exact hpair name addr
    · exact ih

theorem Eval.total_iff (args : List String) : Calm (Eval.new L args) ↔ Eval.Total L args := by
  unfold Eval.new Eval.Total Libraries.parse
  rw [calm_parse_bind_iff]
  refine forall_congr' fun matched => forall_congr' fun _ => ?_
  rw [calm_bind_iff, calm_optionalAddress_iff]
  simp only [addressTotal_iff, ← optionalAddress_ok_iff]
  refine and_congr Iff.rfl ?_
  have hrest : ∀ out : Option Address, Calm (do
      let evalArgs ← Eval.arguments matched.free.tail
      let expr ← unwrap matched.free[0]?
      return { expr, args := evalArgs, out } : Except Failure Eval) ↔
        matched.free ≠ [] ∧ Eval.ArgumentsTotal matched.free.tail := by
    intro out
    rw [calm_bind_iff, Eval.arguments_total_iff]
    cases hfree : matched.free with
    | nil => simp [Eval.ArgumentsTotal, Eval.arguments]
    | cons expr args => simp
  simp only [hrest]
  exact ⟨fun h ⟨out, hout⟩ => h out hout, fun h out hout => h ⟨out, hout⟩⟩

theorem Spawn.total_iff (args : List String) (location : LocationInfo) :
    Calm (Spawn.new L args location) ↔ Spawn.Total L args := by
  unfold Spawn.new Spawn.Total
  rw [calm_parse_bind_iff]
  refine forall_congr' fun matched => forall_congr' fun _ => ?_
  rw [calm_bind_iff, calm_optionalAddress_iff]
  simp only [shortLocalAddressTotal_iff, ← optionalAddress_ok_iff]
  refine and_congr Iff.rfl ?_
  have hrest : ∀ out, Calm (Spawn.ofFree args out location matched.free.length) ↔
      (matched.free.length ≤ 2 → matched.free.length ≤ args.length) := by
    intro out
    match matched.free.length with
    | 0 => simp [Spawn.ofFree]
    | 1 => cases args <;> simp [Spawn.ofFree]
    | 2 => match args with
      | [] | [_] | _ :: _ :: _ => simp [Spawn.ofFree, calm_bind_iff]
    | n + 3 => simp [Spawn.ofFree]
  simp only [hrest]
  exact ⟨fun h ⟨out, hout⟩ => h out hout, fun h out hout => h ⟨out, hout⟩⟩

theorem Set.calm_sourceStr_iff (args : List String) : Calm (Set.sourceStr args) ↔ ∃ s, Set.sourceStr args = .ok s := by
  unfold Set.sourceStr
  cases args[1]? with
  | none => simp
  | some arg =>
    dsimp only
    split_ifs
    · rw [calm_unwrap_iff]
      simp only [unwrap_eq_ok]
    · simp

theorem Set.source_total_iff (args : List String) (target : Target) (location : LocationInfo) (s : String) :
    Calm (do
      let source ← Source.fromStr L s target.varType location
      let out ← optionalAddress ShortLocalAddress.fromStr (Set.outAddr args)
      return { target, source, out } : Except Failure Set) ↔ Set.SourceTotal L args target s := by
  have hout : ∀ source, Calm (do
      let out ← optionalAddress ShortLocalAddress.fromStr (Set.outAddr args)
      return { target, source, out } : Except Failure Set) ↔ Set.OutTotal args := by
    intro source
    rw [calm_bind_iff, calm_optionalAddress_iff]
    simp only [shortLocalAddressTotal_iff]
    exact and_iff_left fun _ _ => calm_ok _
  rw [calm_bind_iff]
  simp only [hout]
  unfold Source.fromStr Set.SourceTotal
  by_cases hsep : separatorSymbol ∈ s.toList
  · rw [if_pos hsep, if_pos hsep, calm_map_iff, calm_unwrap_iff]
    cases Target.ofParts (split separatorSymbol s) <;> simp [Except.map]
  · rw [if_neg hsep, if_neg hsep]
    cases Var.fromStrTyped L.parseFloat s target.varType with
    | ok v => simp
    | error e => cases e <;> simp

theorem Set.total_iff (args : List String) (location : LocationInfo) :
    Calm (Set.new L args location) ↔ Set.Total L args := by
  unfold Set.new Set.Total
  rw [calm_bind_iff, calm_unwrap_iff]
  cases hfirst : args[0]? with
  | none => simp
  | some first =>
    simp only [unwrap_some, Except.ok.injEq, forall_eq', Option.some.injEq, exists_eq', true_and, exists_eq_left']
    rw [calm_bind_iff]
    unfold Target.fromStr
    by_cases hsep : separatorSymbol ∈ first.toList
    · rw [if_pos hsep, calm_unwrap_iff]
      simp only [hsep, forall_true_left, unwrap_eq_ok]
      cases Target.ofParts (split separatorSymbol first) with
      | none => simp
      | some target =>
        simp only [Option.some.injEq, exists_eq', true_and, forall_eq', exists_eq_left']
        rw [calm_bind_iff, Set.calm_sourceStr_iff]
        simp only [Set.source_total_iff]
        constructor
        · intro ⟨⟨s, hs⟩, h⟩
          exact ⟨s, hs, h s hs⟩
        · intro ⟨s, hs, h⟩
          refine ⟨⟨s, hs⟩, fun s' hs' => ?_⟩
          obtain rfl := Except.ok.inj (hs.symm.trans hs')
          exact h
    · rw [if_neg hsep]
      simp [hsep]

theorem mapM_eq_some_iff {α β : Type} {f : α → Option β} {l : List α} :
    (∃ bs, l.mapM f = some bs) ↔ ∀ a ∈ l, ∃ b, f a = some b := by
  induction l with
  | nil => simp
  | cons a l ih =>
    rw [List.mapM_cons, List.forall_mem_cons, ← ih]
    cases f a with
    | none => simp
    | some b => cases l.mapM f <;> simp

theorem RegisterEntityPrefab.setter_iff (s : String) : (∃ r, setter s = some r) ↔
    ∃ a b, cut ['='] s.toList = some (a, b) ∧ (∃ addr, LocalAddress.fromStr (String.ofList a) = .ok addr) ∧
      ∃ v, Var.fromStrUntyped (String.ofList b) = .ok v := by
  unfold setter
  cases cut ['='] s.toList with
  | none => simp
  | some parts =>
    obtain ⟨a, b⟩ := parts
    simp only [Option.bind_eq_bind, Option.bind_some, Option.some.injEq, Prod.mk.injEq]
    cases haddr : LocalAddress.fromStr (String.ofList a) with
    | error e => 
      constructor
      · rintro ⟨_, h⟩
        exact absurd h (by simp)
      · rintro ⟨a', b', ⟨rfl, rfl⟩, ⟨addr, h⟩, _⟩
        exact absurd (haddr.symm.trans h) (by simp)
    | ok addr => 
      cases hv : Var.fromStrUntyped (String.ofList b) with
      | error e =>
        constructor
        · rintro ⟨_, h⟩
          exact absurd h (by simp)
        · rintro ⟨a', b', ⟨rfl, rfl⟩, _, v, h⟩
          exact absurd (hv.symm.trans h) (by simp)
      | ok v => exact ⟨fun _ => ⟨a, b, ⟨rfl, rfl⟩, ⟨addr, haddr⟩, v, hv⟩, fun _ => ⟨(addr, v), rfl⟩⟩

theorem RegisterEntityPrefab.total_iff (args : List String) :
    Calm (RegisterEntityPrefab.new L args) ↔ RegisterEntityPrefab.Total L args := by
  unfold RegisterEntityPrefab.new RegisterEntityPrefab.Total Libraries.parse
  rw [calm_parse_bind_iff]
  refine forall_congr' fun matched => forall_congr' fun _ => ?_
  rw [calm_bind_iff, calm_unwrap_iff]
  simp only [← RegisterEntityPrefab.setter_iff]
  rw [← mapM_eq_some_iff]
  cases args with
  | nil => simp
  | cons name args =>
    cases (matched.values "set").mapM RegisterEntityPrefab.setter <;> simp

theorem RegisterVar.total_iff (args : List String) (location : LocationInfo) :
    Calm (RegisterVar.new L args location) ↔ RegisterVar.Total L args := by
  unfold RegisterVar.new RegisterVar.Total
  cases hmatched : L.getopts [("", "default")] args with
  | error text => simp
  | ok matched =>
    simp only [Except.ok.injEq, exists_eq_left']
    cases matched.free with
    | nil => simp
    | cons first rest =>
      simp only [List.head?_cons, Option.mem_some_iff, forall_eq', ← shortLocalAddressTotal_iff]
      cases ShortLocalAddress.fromStr first with
      | ok addr => simp
      | error e => cases e <;> simp

/-- the addresses for the placeholders from number `count` on are read -/
theorem PrintFmt.template_total_iff (free : List String) (k count : ℕ) (fmt : List Char) (inserts : List (ℕ × Address)) :
    (∃ cmd, template free k fmt count inserts = some cmd) ↔
      ∀ i < placeholders k fmt, ∀ s, free[count + i]? = some s → AddressTotal s := by
  induction k generalizing count fmt inserts with
  | zero => simp [template, placeholders]
  | succ k ih =>
    rw [template, placeholders]
    cases cut ['{', '}'] fmt with
    | none => simp
    | some parts =>
      obtain ⟨before, after⟩ := parts
      have hnext : (∀ i < placeholders k (before ++ after) + 1, ∀ s, free[count + i]? = some s → AddressTotal s) ↔
          (∀ s, free[count]? = some s → AddressTotal s) ∧
            ∀ i < placeholders k (before ++ after), ∀ s, free[count + 1 + i]? = some s → AddressTotal s := by
        constructor
        · intro h
          refine ⟨h 0 (Nat.succ_pos _), fun i hi => ?_⟩
          rw [Nat.add_right_comm]
          exact h (i + 1) (Nat.succ_lt_succ hi)
        · intro ⟨hcount, hrest⟩ i hi
          cases i with
          | zero => exact hcount
          | succ i =>
            rw [show count + (i + 1) = count + 1 + i by omega]
            exact hrest i (Nat.lt_of_succ_lt_succ hi)
      dsimp only
      rw [hnext]
      cases hs : free[count]? with
      | none => exact (ih _ _ _).trans (and_iff_right (by simp)).symm
      | some s =>
        simp only [Option.map_some, Option.some.injEq, forall_eq']
        rw [← addressTotal_iff]
        cases Address.fromStr s with
        | ok addr => exact (ih _ _ _).trans (and_iff_right (by simp)).symm
        | error e =>
          cases e with
          | panic => simp
          | _ => exact (ih _ _ _).trans (and_iff_right (by simp)).symm

theorem PrintFmt.total_iff (args : List String) : Calm (PrintFmt.fromArgs L args) ↔ PrintFmt.Total L args := by
  unfold PrintFmt.fromArgs PrintFmt.Total Libraries.parse
  rw [calm_parse_bind_iff]
  refine forall_congr' fun matched => forall_congr' fun _ => ?_
  rw [calm_bind_iff, calm_unwrap_iff]
  cases hfirst : matched.free[0]? with
  | none => simp
  | some first =>
    simp only [unwrap_some, Except.ok.injEq, forall_eq', Option.some.injEq, exists_eq', true_and, exists_eq_left']
    rw [← addressTotal_iff]
    cases Address.fromStr first with
    | ok addr => exact ⟨fun _ => ⟨by simp, Or.inl ⟨addr, rfl⟩⟩, fun _ => calm_ok _⟩
    | error e =>
      have hno : ¬ ∃ addr, (.error e : Except AddressFailure Address) = .ok addr := by simp
      rw [or_iff_right hno, ← PrintFmt.template_total_iff matched.free first.length 1 first.toList [],
        ← calm_unwrap_iff]
      cases e with
      | panic => simp
      | _ => exact (and_iff_right (by simp)).symm

theorem OneLine.total_iff (cmd : OneLine) (location : LocationInfo) :
    Calm (L.readers.oneLine cmd location) ↔ cmd.Total L := by
  have hmade : Calm (L.readers.oneLine cmd location) ↔ Calm (cmd.action L location) := calm_map_iff
  obtain ⟨name, arguments⟩ := cmd
  have hargument : (∃ s, arguments[0]? = some s) ↔ arguments ≠ [] := by cases arguments <;> simp
  rw [hmade]
  unfold OneLine.action
  dsimp only
  split
  · exact Iff.trans calm_return_iff (PrintFmt.total_iff L arguments)
  · exact Iff.trans calm_return_iff (Set.total_iff L arguments location)
  · exact Iff.trans calm_return_iff (Spawn.total_iff L arguments location)
  · exact ⟨fun _ => trivial, fun _ => calm_ok _⟩
  · exact ⟨fun _ => trivial, fun _ => calm_ok _⟩
  · exact Iff.trans calm_return_iff (RegisterEntityPrefab.total_iff L arguments)
  · exact Iff.trans calm_return_iff (RegisterEntityPrefab.total_iff L arguments)
  · exact Iff.trans calm_return_iff (Iff.trans calm_unwrap_iff hargument)
  · exact Iff.trans calm_return_iff (Iff.trans calm_unwrap_iff hargument)
  · exact Iff.trans calm_return_iff (Iff.trans calm_unwrap_iff hargument)
  · exact Iff.trans calm_return_iff (Eval.total_iff L arguments)
  · have htotal : OneLine.Total L ⟨name, arguments⟩ := by
      unfold OneLine.Total
      dsimp only
      split <;> trivial
    exact ⟨fun _ => htotal, fun _ => calm_error _ _⟩

/-! ## Blocks do not panic -/

section
variable {location : LocationInfo} {commands : List CommandPrototype} {line : ℕ} {d : Defs} {notFound : String}

theorem calm_blockPositions : Calm (blockPositions location commands line d notFound) := by
  unfold blockPositions
  split <;> simp

theorem endFound_iff (notFound : String) (hline : location.line = some line) :
    EndFound location commands d ↔ ∃ positions, blockPositions location commands line d notFound = .ok positions := by
  unfold EndFound blockPositions
  simp only [hline, Option.some.injEq, exists_and_left, exists_eq_left']
  split <;> simp_all

/-- a block's constructor, whose search comes before what can panic -/
theorem calm_search_iff {β : Type} {g : ℕ → ℕ × List ℕ → Except Failure β} {p : Prop}
    (hline : location.line = some line) (hg : ∀ line positions, Calm (g line positions) ↔ p) :
    Calm (do
      let line ← unwrap location.line
      let positions ← blockPositions location commands line d notFound
      g line positions) ↔ (EndFound location commands d → p) := by
  rw [hline, endFound_iff notFound hline, unwrap_some, calm_ok_bind_iff, calm_bind_iff, and_iff_right (calm_blockPositions)]
  constructor
  · intro h ⟨positions, hpositions⟩
    exact (hg line positions).mp (h positions hpositions)
  · intro h positions hpositions
    exact (hg line positions).mpr (h ⟨positions, hpositions⟩)

theorem calm_search_name_iff {β : Type} {args : List String} {f : ℕ → ℕ × List ℕ → String → β}
    (hline : location.line = some line) :
    Calm (do
      let line ← unwrap location.line
      let positions ← blockPositions location commands line d notFound
      let name ← unwrap args[0]?
      return f line positions name) ↔ NameTotal args location commands d := by
  refine calm_search_iff hline fun line positions => ?_
  cases args <;> simp

end

section
variable {location : LocationInfo} (commands : List CommandPrototype) {line : ℕ}

theorem calm_value (s : String) : Calm (L.readers.value s) := by
  have hread : Var.fromStrUntyped s ≠ .error .panic := by
    unfold Var.fromStrUntyped
    split_ifs
    · simp
    · simp
    · simp
    · simp
    · cases parseI32 s <;> simp
  unfold Libraries.readers valueResult
  dsimp only
  cases hs : Var.fromStrUntyped s with
  | ok v => simp
  | error e =>
    cases e with
    | invalid => simp
    | panic => exact absurd hs hread

theorem calm_address_iff (s : String) : Calm (L.readers.address s) ↔ AddressTotal s :=
  Iff.trans calm_addressResult_iff (addressTotal_iff s)

theorem address_ok_iff {s : String} {addr : Address} : L.readers.address s = .ok addr ↔ Address.fromStr s = .ok addr :=
  addressResult_eq_ok_iff

theorem Condition.total_iff (arg : String) (rest : List String) :
    Calm (Condition.new L.readers arg rest) ↔ Condition.Total arg rest := by
  unfold Condition.new Condition.Total
  by_cases hone : rest = [] ∧ separatorSymbol ∈ arg.toList
  · rw [if_pos hone, if_pos hone]
    unfold Libraries.readers
    dsimp only
    cases Address.fromStr arg with
    | ok addr => simp [addressResult]
    | error e => cases e <;> simp [addressResult]
  · rw [if_neg hone, if_neg hone]
    cases rest with
    | nil => simp
    | cons op rest =>
      rw [List.getElem?_cons_zero, unwrap_some, calm_ok_bind_iff]
      by_cases hop : op = "=="
      · have hright : ∀ addr, Calm (do
            let right ← L.readers.value (← unwrap (op :: rest)[1]?)
            return .assertEqual addr right : Except Failure Condition) ↔ 2 ≤ (op :: rest).length := by
          intro addr
          cases rest with
          | nil => simp
          | cons s rest => exact Iff.trans calm_return_iff (iff_of_true (calm_value L s) (by simp))
        rw [if_pos hop, calm_bind_iff, calm_address_iff]
        simp only [hright, address_ok_iff]
        simp [hop]
      · rw [if_neg hop]
        simp only [Option.some.injEq, hop, false_implies, and_true]
        exact iff_of_true (calm_ok _) (List.cons_ne_nil op rest)

theorem If.total_iff (args : List String) (hline : location.line = some line) :
    Calm (If.new L.readers args location commands) ↔ If.Total args location commands := by
  unfold If.new If.Total
  cases args with
  | nil => simp
  | cons arg rest =>
    have hsearch : Calm (do
        let line ← unwrap location.line
        let positions ← blockPositions location commands line If.defs "end of if/else block not found."
        let condition ← Condition.new L.readers arg rest
        return { condition, start := line, end_ := positions.1, elseLines := positions.2 } : Except Failure If) ↔
          (EndFound location commands If.defs → Condition.Total arg rest) := by
      refine calm_search_iff hline fun line positions => ?_
      exact Iff.trans calm_return_iff (Condition.total_iff L arg rest)
    refine hsearch.trans ⟨fun h arg' rest' heq => ?_, fun h => h arg rest rfl⟩
    cases heq
    exact h

theorem Loop.total_iff (args : List String) (hline : location.line = some line) :
    Calm (Loop.new args location commands) ↔ Loop.Total args location commands := by
  unfold Loop.new Loop.Total
  refine calm_search_iff hline fun line positions => ?_
  rw [calm_return_iff]
  cases args with
  | nil => simp [BreakCondition.new]
  | cons arg rest =>
    simp only [BreakCondition.new, List.head?_cons, Option.mem_some_iff, forall_eq']
    split_ifs <;> simp_all

theorem calm_shortLocalAddress_iff (s : String) :
    Calm (L.readers.shortLocalAddress location s) ↔ ShortLocalAddressTotal s := by
  rw [← shortLocalAddressTotal_iff]
  unfold Libraries.readers
  dsimp only
  cases ShortLocalAddress.fromStr s with
  | ok addr => simp
  | error e => cases e <;> simp

theorem shortLocalAddress_ok_iff (s : String) (addr : ShortLocalAddress) :
    L.readers.shortLocalAddress location s = .ok addr ↔ ShortLocalAddress.fromStr s = .ok addr := by
  unfold Libraries.readers
  dsimp only
  cases ShortLocalAddress.fromStr s with
  | ok addr => simp
  | error e => cases e <;> simp

/-- the line of the script is quoted -/
theorem quote_total_iff (location : LocationInfo) : Calm (L.formatErrNoArguments location) ↔
    ∃ line source text,
      location.sourceLine = some line ∧ location.source = some source ∧ L.quoteLine source line = some text := by
  unfold Libraries.formatErrNoArguments
  cases location.sourceLine with
  | none => simp
  | some line =>
    cases location.source with
    | none => simp
    | some source => simp [calm_unwrap_iff]

theorem ForIn.operands_total_iff (args : List String) (location : LocationInfo) :
    Calm (ForIn.operands L.readers args location) ↔ ForIn.Total L args location := by
  unfold ForIn.operands ForIn.Total
  cases args[0]? with
  | none =>
    rw [← quote_total_iff]
    exact Iff.trans calm_bind_iff (and_iff_left fun _ _ => calm_error _ _)
  | some arg =>
    dsimp only
    rw [calm_bind_iff, calm_shortLocalAddress_iff]
    simp only [shortLocalAddress_ok_iff]
    refine and_congr_right fun _ => ?_
    cases args[2]? with
    | none => exact iff_of_true (fun _ _ => calm_error _ _) (by simp)
    | some target =>
      simp only [calm_return_iff, calm_shortLocalAddress_iff, Option.some.injEq, forall_eq']
      exact ⟨fun h ⟨addr, haddr⟩ => h addr haddr, fun h addr haddr => h ⟨addr, haddr⟩⟩

theorem ForIn.total_iff (args : List String) (hline : location.line = some line) :
    Calm (ForIn.new L.readers args location commands) ↔ ForIn.Total L args location := by
  unfold ForIn.new
  rw [hline, unwrap_some, calm_ok_bind_iff, calm_bind_iff, ForIn.operands_total_iff]
  exact and_iff_left fun _ _ => calm_return_iff.2 calm_blockPositions

theorem MachineBlock.calm_new (hline : location.line = some line) : Calm (MachineBlock.new location commands) := by
  unfold MachineBlock.new
  rw [hline, unwrap_some, calm_ok_bind_iff]
  exact calm_return_iff.2 calm_blockPositions

theorem Call.total_iff (args : List String) : Calm (Call.new args) ↔ args ≠ [] := by
  refine Iff.trans calm_return_iff ?_
  cases args <;> simp

end

/-! ## Making commands -/

theorem calm_ite_iff {α : Type} {c p q : Prop} [Decidable c] {x y : Except Failure α} (hx : Calm x ↔ p)
    (hy : Calm y ↔ q) : Calm (if c then x else y) ↔ if c then p else q := by
  by_cases hc : c
  · rw [if_pos hc, if_pos hc]
    exact hx
  · rw [if_neg hc, if_neg hc]
    exact hy

theorem fromPrototype_total_iff (proto : CommandPrototype) {location : LocationInfo} (commands : List CommandPrototype)
    {line : ℕ} (hline : location.line = some line) :
    Calm (Command.fromPrototype L.readers proto location commands) ↔ proto.Total L location commands := by
  unfold Command.fromPrototype CommandPrototype.Total
  dsimp only
  cases proto.name with
  | none => simp
  | some name =>
    dsimp only
    generalize proto.arguments.getD [] = args
    apply calm_ite_iff
    · exact Iff.trans calm_return_iff (OneLine.total_iff L ⟨name, args⟩ location)
    apply calm_ite_iff
    · exact Iff.trans calm_return_iff (RegisterVar.total_iff L args location)
    apply calm_ite_iff
    · exact Iff.trans calm_return_iff (iff_true_intro (MachineBlock.calm_new commands hline))
    apply calm_ite_iff
    · exact Iff.trans calm_return_iff (calm_search_name_iff hline)
    apply calm_ite_iff
    · exact Iff.trans calm_return_iff (calm_search_name_iff hline)
    apply calm_ite_iff
    · exact Iff.trans calm_return_iff (If.total_iff L commands args hline)
    apply calm_ite_iff
    · exact iff_true_intro (calm_ok _)
    apply calm_ite_iff
    · exact Iff.trans calm_return_iff (calm_search_name_iff hline)
    apply calm_ite_iff
    · exact Iff.trans calm_return_iff (Call.total_iff args)
    apply calm_ite_iff
    · exact iff_true_intro (calm_ok _)
    apply calm_ite_iff
    · exact Iff.trans calm_return_iff (ForIn.total_iff L commands args hline)
    apply calm_ite_iff
    · exact Iff.trans calm_return_iff (Loop.total_iff commands args hline)
    · refine iff_true_intro ?_
      split_ifs
      · exact calm_ok _
      · exact calm_error _ _

/-! ## Loading commands -/

/-- no command panics that is made after those before it -/
def CommandsTotal (protos : List CommandPrototype) (locations : ℕ → LocationInfo) : Prop :=
  ∀ n proto, protos[n]? = some proto → (∀ k < n, ∃ c, builtAt L.readers locations protos k = some (.ok c)) →
    proto.Total L (locations n) protos

/-- the commands that are loaded after the first `n` -/
theorem load_rest_total_iff {protos : List CommandPrototype} {locations : ℕ → LocationInfo}
    (hline : ∀ n, (locations n).line = some n) (rest : List CommandPrototype) (n : ℕ) (logic : Logic) :
    Calm (Logic.load L.readers protos locations rest n logic) ↔ ∀ k proto, rest[k]? = some proto →
      (∀ j < k, ∃ p c, rest[j]? = some p ∧ Command.fromPrototype L.readers p (locations (n + j)) protos = .ok c) →
        proto.Total L (locations (n + k)) protos := by
  induction rest generalizing n logic with
  | nil => exact iff_of_true (calm_ok _) (by simp)
  | cons first rest ih =>
    rw [Logic.load, calm_bind_iff, fromPrototype_total_iff L first protos (hline n)]
    simp only [ih]
    constructor
    · intro ⟨hfirst, hrest⟩ k proto hproto hmade
      cases k with
      | zero =>
        obtain rfl := Option.some.inj hproto
        exact hfirst
      | succ k =>
        obtain ⟨p, c, hp, hc⟩ := hmade 0 (Nat.succ_pos k)
        obtain rfl := Option.some.inj hp
        rw [← Nat.succ_add_eq_add_succ]
        refine hrest c hc k proto hproto fun j hj => ?_
        obtain ⟨p, c, hp, hc⟩ := hmade (j + 1) (Nat.succ_lt_succ hj)
        exact ⟨p, c, hp, by rwa [Nat.succ_add_eq_add_succ]⟩
    · intro h
      refine ⟨h 0 first rfl fun j hj => absurd hj (Nat.not_lt_zero j), fun c hc k proto hproto hmade => ?_⟩
      rw [Nat.succ_add_eq_add_succ]
      refine h (k + 1) proto hproto fun j hj => ?_
      cases j with
      | zero => exact ⟨first, c, rfl, hc⟩
      | succ j =>
        obtain ⟨p, c, hp, hc⟩ := hmade j (Nat.lt_of_succ_lt_succ hj)
        exact ⟨p, c, hp, by rwa [← Nat.succ_add_eq_add_succ]⟩

theorem load_total_iff {protos : List CommandPrototype} {locations : ℕ → LocationInfo}
    (hline : ∀ n, (locations n).line = some n) :
    Calm (Logic.fromPrototypes L.readers protos locations) ↔ CommandsTotal L protos locations := by
  have hmade : ∀ k, (∃ c, builtAt L.readers locations protos k = some (.ok c)) ↔
      ∃ p c, protos[k]? = some p ∧ Command.fromPrototype L.readers p (locations (0 + k)) protos = .ok c := by
    intro k
    rw [Nat.zero_add]
    unfold builtAt
    cases protos[k]? <;> simp
  refine Iff.trans calm_return_iff ((load_rest_total_iff L hline protos 0 Logic.default).trans ?_)
  unfold CommandsTotal
  simp only [hmade, Nat.zero_add]

end BigWorlds.Machine
