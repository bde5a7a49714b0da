/-
The preprocessor of scripts (`machine/script/preprocessor.rs`).

Directives are run in passes over the instructions: `!include`, which needs the path of the script, then the conditional
directives, then `!print`. A script from a text has no path while it is preprocessed, and no data for `!print`.

- `includes_end`, `print_ends`: the two loops end;
- `print_ok_iff`: what `!print` accepts, without data;
- `preprocess_iff`: when a script from a text is preprocessed, and what is left of it.
-/
import BigWorlds.Core.Loop
import BigWorlds.Machine.Parser

namespace BigWorlds.Machine

open BigWorlds.Core (bind_eq_ok utf8Length sliceFrom sliceTo slice find cut split)

/-! ## Empty instructions -/

def eliminateEmpty (instructions : List Instruction) : List Instruction :=
  instructions.filter fun i => i.type_ ≠ .none_

def Instruction.isDirective (i : Instruction) : Bool :=
  match i.type_ with
  | .directive _ => true
  | _ => false

def eliminateDirectives (instructions : List Instruction) : List Instruction :=
  instructions.filter fun i => !i.isDirective

/-! ## Includes -/

/-- the components of a path, besides the root -/
def pathComponents (path : String) : List String :=
  match split '/' path with
  | "." :: parts => "." :: parts.filter fun part => part ≠ "" ∧ part ≠ "."
  | parts => parts.filter fun part => part ≠ "" ∧ part ≠ "."

/-- whether `Path::parent` is there -/
def hasParent (path : String) : Bool := pathComponents path ≠ []

/-- `Path::file_name` -/
def fileName (path : String) : Option String :=
  (pathComponents path).getLast?.filter fun part => part ≠ ".." ∧ part ≠ "."

def Instruction.isInclude (i : Instruction) : Bool :=
  match i.type_ with
  | .directive d => d.name = some "include"
  | _ => false

/-- what the loop of `run_includes` does with the directive it has taken out: no file is read, but the name of the
script's own file is looked at for every argument -/
def runInclude (incl : Instruction) : Except Failure Unit := do
  let scriptPath ← unwrap incl.location.source
  if hasParent scriptPath then
    match incl.type_ with
    | .directive ⟨_, some (_ :: _)⟩ => do
      let _ ← unwrap (fileName scriptPath)
    | _ => return
  else .error .panic

/-- one turn of the loop in `run_includes`: the last directive is taken out; the loop ends when there is none -/
def includesTurn (instructions : List Instruction) : Except Failure (List Instruction ⊕ List Instruction) :=
  match (instructions.rdropWhile (!·.isInclude)).getLast? with
  | none => .ok (.inr instructions)
  | some incl => do
    runInclude incl
    return .inl ((instructions.rdropWhile (!·.isInclude)).dropLast ++ instructions.rtakeWhile (!·.isInclude))

/-! ## Conditionals -/

/-- the loop of `run_conditionals`, with its two variables -/
def runConditionals.loop : (insideIfIf insideIfElse : Bool) → List Instruction → Except Failure (List Instruction)
  | _, _, [] => .ok []
  | insideIfIf, insideIfElse, instruction :: rest =>
    match instruction.type_ with
    | .none_ => runConditionals.loop insideIfIf insideIfElse rest
    | .command _ => do
      let out ← runConditionals.loop insideIfIf insideIfElse rest
      return if insideIfIf = false ∧ insideIfElse = false then instruction :: out else out
    | .directive directive => do
      let name ← unwrap directive.name
      let refuse (text : String) : Except Failure (List Instruction) :=
        .error (.error instruction.location (.errorProcessingDirective text))
      if name = "if" then
        if insideIfIf then refuse "nested `if` directives not supported"
        else if insideIfElse then refuse "cannot place `if` inside `else` block"
        else runConditionals.loop true insideIfElse rest
      else if name = "else" then
        if insideIfIf then runConditionals.loop false true rest
        else if insideIfElse then refuse "nested `else` directives are not allowed"
        else refuse "`else` must be declared inside `if` block"
      else if name = "endif" then
        if insideIfIf then runConditionals.loop false insideIfElse rest
        else if insideIfElse then runConditionals.loop insideIfIf false rest
        else refuse "`endif` without preceding `if`"
      else
        let out ← runConditionals.loop insideIfIf insideIfElse rest
        return if insideIfIf then out else instruction :: out

def runConditionals (instructions : List Instruction) : Except Failure (List Instruction) :=
  runConditionals.loop false false instructions

/-! ## Printing -/

/-- one turn of the loop in `run_print` -/
def printTurn (programData : String → Option String) (location : LocationInfo) (printString : List Char) :
    Except Failure (List Char ⊕ Unit) :=
  match find ['$', '{'] printString with
  | some startIndex =>
    match find ['}'] printString with
    | some endIndex => do
      let before ← unwrap (sliceTo printString startIndex)
      let name ← unwrap (slice printString (startIndex + 2) endIndex)
      let after ← unwrap (sliceFrom printString (endIndex + 1))
      return .inl (before ++ ((programData (String.ofList name)).getD "ERROR").toList ++ after)
    | none => .ok (.inr ())
  | none =>
    match find ['$'] printString with
    | some startIndex => do
      let noData (name : List Char) : Failure :=
        .error location (.errorProcessingDirective ("no data: " ++ String.ofList name))
      let fromStart ← unwrap (sliceFrom printString startIndex)
      let before ← unwrap (sliceTo printString startIndex)
      match find [' '] fromStart with
      -- the index of the blank is taken from the dollar sign on, and used from the start on
      | some endIndex =>
        let name ← unwrap (slice printString (startIndex + 1) endIndex)
        let val ← okOr (programData (String.ofList name)) (noData name)
        let after ← unwrap (sliceFrom printString endIndex)
        return .inl (before ++ val.toList ++ after)
      | none =>
        let name ← unwrap (sliceFrom printString (startIndex + 1))
        let val ← okOr (programData (String.ofList name)) (noData name)
        return .inl (before ++ val.toList)
    | none => .ok (.inr ())

def runPrint (programData : String → Option String) (turns : ℕ) (directive : DirectivePrototype)
    (location : LocationInfo) : Option (Except Failure Unit) :=
  match directive.arguments with
  | some (printString :: _) => Core.loop (printTurn programData location) turns printString.toList
  | _ => some (.error .panic)

def runRemaining (programData : String → Option String) (turns : ℕ) :
    List Instruction → Option (Except Failure Unit)
  | [] => some (.ok ())
  | instruction :: rest =>
    match instruction.type_ with
    | .directive directive =>
      match directive.name with
      | none => some (.error .panic)
      | some name =>
        if name = "print" then
          match runPrint programData turns directive instruction.location with
          | some (.ok ()) => runRemaining programData turns rest
          | r => r
        else runRemaining programData turns rest
    | _ => runRemaining programData turns rest

/-! ## The passes -/

/-- `preprocessor::run`, none if one of its loops takes more turns -/
def preprocess (programData : String → Option String) (turns : ℕ) (instructions : List Instruction) :
    Option (Except Failure (List Instruction)) :=
  match Core.loop includesTurn turns (eliminateEmpty instructions) with
  | some (.ok included) =>
    match runConditionals included with
    | .error e => some (.error e)
    | .ok out =>
      match runRemaining programData turns out with
      | some (.ok ()) => some (.ok (eliminateDirectives out))
      | some (.error e) => some (.error e)
      | none => none
  | r => r

/-! ## More turns -/

section
variable {programData : String → Option String} {turns turns' : ℕ} {instructions : List Instruction}

theorem runPrint_mono {d : DirectivePrototype} {location : LocationInfo} {r : Except Failure Unit}
    (h : runPrint programData turns d location = some r) (hle : turns ≤ turns') :
    runPrint programData turns' d location = some r := by
  unfold runPrint at h ⊢
  split at h
  · exact Core.loop_mono h hle
  · exact h

theorem runRemaining_mono {r : Except Failure Unit} (h : runRemaining programData turns instructions = some r)
    (hle : turns ≤ turns') : runRemaining programData turns' instructions = some r := by
  induction instructions with
  | nil => exact h
  | cons i rest ih =>
    obtain ⟨location, type_⟩ := i
    cases type_ with
    | none_ | command proto => exact ih h
    | directive d =>
      rw [runRemaining] at h ⊢
      dsimp only at h ⊢
      cases hname : d.name with
      | none =>
        rw [hname] at h
        exact h
      | some name =>
        rw [hname] at h
        dsimp only at h ⊢
        split_ifs at h ⊢ with hprint
        · cases hr : runPrint programData turns d location with
          | none =>
            rw [hr] at h
            exact absurd h (by simp)
          | some printed =>
            rw [hr] at h
            rw [runPrint_mono hr hle]
            cases printed with
            | error e => exact h
            | ok u => exact ih h
        · exact ih h

/-- more turns than it takes change nothing -/
theorem preprocess_mono {r : Except Failure (List Instruction)} (h : preprocess programData turns instructions = some r)
    (hle : turns ≤ turns') : preprocess programData turns' instructions = some r := by
  unfold preprocess at h ⊢
  cases hincludes : Core.loop includesTurn turns (eliminateEmpty instructions) with
  | none =>
    rw [hincludes] at h
    exact absurd h (by simp)
  | some included =>
    rw [hincludes] at h
    rw [Core.loop_mono hincludes hle]
    cases included with
    | error e => exact h
    | ok included =>
      dsimp only at h ⊢
      cases hout : runConditionals included with
      | error e =>
        rw [hout] at h
        exact h
      | ok out =>
        rw [hout] at h
        dsimp only at h ⊢
        cases hr : runRemaining programData turns out with
        | none =>
          rw [hr] at h
          exact absurd h (by simp)
        | some done =>
          rw [hr] at h
          rw [runRemaining_mono hr hle]
          exact h

end

/-! ## Includes from a text -/

section
variable {instructions : List Instruction} {turns : ℕ}

/-- every turn takes an instruction out -/
theorem includesTurn_length {instructions' : List Instruction}
    (h : includesTurn instructions = .ok (.inl instructions')) : instructions'.length < instructions.length := by
  unfold includesTurn at h
  cases hlast : (instructions.rdropWhile (!·.isInclude)).getLast? with
  | none =>
    rw [hlast] at h
    exact absurd h (by simp)
  | some incl =>
    rw [hlast] at h
    obtain ⟨_, _, h⟩ := bind_eq_ok.mp h
    obtain rfl := Sum.inl.inj (Except.ok.inj h)
    have hparts : (instructions.rdropWhile (!·.isInclude) ++ instructions.rtakeWhile (!·.isInclude)).length =
        instructions.length := congrArg List.length List.rdropWhile_append_rtakeWhile
    have hpos : 0 < (instructions.rdropWhile (!·.isInclude)).length := by
      rw [List.length_pos_iff]
      rintro hnil
      rw [hnil] at hlast
      exact absurd hlast (by simp)
    rw [List.length_append] at hparts
    rw [List.length_append, List.length_dropLast]
    omega

/-- the loop of `run_includes` ends -/
theorem includes_end (h : instructions.length < turns) : ∃ r, Core.loop includesTurn turns instructions = some r :=
  Core.loop_ends (fun _ _ => includesTurn_length) h

/-- where the script has no path, an include is a panic -/
theorem includes_iff (hsource : ∀ i ∈ instructions, i.location.source = none) (hturns : 0 < turns)
    {included : List Instruction} :
    Core.loop includesTurn turns instructions = some (.ok included) ↔
      (∀ i ∈ instructions, i.isInclude = false) ∧ included = instructions := by
  obtain ⟨k, rfl⟩ := Nat.exists_eq_succ_of_ne_zero (Nat.pos_iff_ne_zero.mp hturns)
  rw [Core.loop, includesTurn]
  cases hlast : (instructions.rdropWhile (!·.isInclude)).getLast? with
  | none =>
    have hnil : instructions.rdropWhile (!·.isInclude) = [] := List.getLast?_eq_none_iff.mp hlast
    have hall : ∀ i ∈ instructions, i.isInclude = false := by
      intro i hi
      simpa using List.rdropWhile_eq_nil_iff.mp hnil i hi
    constructor
    · intro h
      exact ⟨hall, (Except.ok.inj (Option.some.inj h)).symm⟩
    · intro h
      rw [h.2]
  | some incl =>
    have hne : instructions.rdropWhile (!·.isInclude) ≠ [] := fun hnil => absurd hlast (by simp [hnil])
    have hincl : (instructions.rdropWhile (!·.isInclude)).getLast hne = incl :=
      Option.some.inj ((List.getLast?_eq_some_getLast hne).symm.trans hlast)
    have hmem : incl ∈ instructions :=
      (List.rdropWhile_prefix _ _).subset (hincl ▸ List.getLast_mem hne)
    have hinclude : incl.isInclude = true := by
      have hlast := List.rdropWhile_last_not _ _ hne
      rw [hincl] at hlast
      simpa using hlast
    have hpanic : runInclude incl = .error .panic := by rw [runInclude, hsource incl hmem]; rfl
    dsimp only
    rw [hpanic]
    constructor
    · intro h
      cases h
    · intro h
      exact absurd (h.1 incl hmem) (by simp [hinclude])

end

/-! ## One turn of printing -/

section
variable (programData : String → Option String) (location : LocationInfo) {s front back name rest : List Char}

/-- where the loop ends in a text without a dollar sign, and in one without a brace that closes a name -/
theorem printTurn_plain (h : '$' ∉ s) : printTurn programData location s = .ok (.inr ()) := by
  have hname : cut ['$', '{'] s = none := by
    rw [Core.cut_eq_none_iff]
    intro hpair
    exact h (hpair.subset List.mem_cons_self)
  simp [printTurn, find, hname, Core.cut_singleton_eq_none_iff.mpr h]

theorem printTurn_open (h : ['$', '{'] <:+: s) (hclose : '}' ∉ s) :
    printTurn programData location s = .ok (.inr ()) := by
  cases hname : cut ['$', '{'] s with
  | none => exact absurd h (Core.cut_eq_none_iff.mp hname)
  | some parts => simp [printTurn, find, hname, Core.cut_singleton_eq_none_iff.mpr hclose]

/-- a brace that closes before the one that opens is a panic -/
theorem printTurn_closed (h : cut ['$', '{'] s = some (front, back)) (hclose : '}' ∈ front) :
    printTurn programData location s = .error .panic := by
  have hs := Core.eq_of_cut h
  have hcut : ∃ before after, cut ['}'] s = some (before, after) ∧ utf8Length before < utf8Length front := by
    cases hf : cut ['}'] front with
    | none => exact absurd hclose (Core.cut_singleton_eq_none_iff.mp hf)
    | some parts =>
      have heq := congrArg utf8Length (Core.eq_of_cut hf)
      rw [Core.utf8Length_append, Core.utf8Length_append, show utf8Length ['}'] = 1 from rfl] at heq
      refine ⟨parts.1, parts.2 ++ (['$', '{'] ++ back), ?_, by omega⟩
      rw [hs, List.append_assoc, Core.cut_append_of_mem hclose, hf, Option.map_some]
  obtain ⟨before, after, hcut, hlt⟩ := hcut
  have hslice : slice s (utf8Length front + 2) (utf8Length before) = none := if_neg (by omega)
  have hto : sliceTo s (utf8Length front) = some front := by
    rw [hs, List.append_assoc, Core.sliceTo_append]
  rw [printTurn]
  simp only [find, h, hcut, Option.map_some, hto, hslice, unwrap_some, unwrap_none]
  rfl

/-- a name in braces -/
theorem printTurn_braced (hname : cut ['$', '{'] s = some (front, name ++ '}' :: rest)) (hfront : '}' ∉ front)
    (hclose : '}' ∉ name) : printTurn programData location s =
      .ok (.inl (front ++ ((programData (String.ofList name)).getD "ERROR").toList ++ rest)) := by
  have hs : s = front ++ '$' :: '{' :: (name ++ '}' :: rest) := by rw [Core.eq_of_cut hname]; simp
  have hend : s = (front ++ ['$', '{'] ++ name) ++ '}' :: rest := by rw [hs]; simp
  have hafter : s = (front ++ ['$', '{'] ++ name ++ ['}']) ++ rest := by rw [hs]; simp
  have hcut : cut ['}'] s = some (front ++ ['$', '{'] ++ name, rest) := by
    have hnone : '}' ∉ front ++ ['$', '{'] ++ name := by simp [hfront, hclose]
    rw [hend, Core.cut_append_of_not_mem hnone]
    simp [cut]
  have hbefore : sliceTo s (utf8Length front) = some front := by rw [hs, Core.sliceTo_append]
  have hname' : slice s (utf8Length front + 2) (utf8Length (front ++ ['$', '{'] ++ name)) = some name := by
    have hlen : utf8Length front + 2 = utf8Length (front ++ ['$', '{']) := by rw [Core.utf8Length_append]; rfl
    have hle : utf8Length (front ++ ['$', '{']) ≤ utf8Length (front ++ ['$', '{'] ++ name) :=
      (Nat.le_add_right _ _).trans_eq (Core.utf8Length_append).symm
    rw [slice, hlen, if_pos hle, hend, Core.sliceTo_append, Option.bind_some, Core.sliceFrom_append]
  have hrest : sliceFrom s (utf8Length (front ++ ['$', '{'] ++ name) + 1) = some rest := by
    have hlen : utf8Length (front ++ ['$', '{'] ++ name) + 1 = utf8Length (front ++ ['$', '{'] ++ name ++ ['}']) := by
      conv_rhs => rw [Core.utf8Length_append]
      rfl
    rw [hlen, hafter, Core.sliceFrom_append]
  rw [printTurn]
  simp only [find, hname, hcut, Option.map_some, hbefore, hname', hrest, unwrap_some]
  rfl

end

/-! ## Printing without data -/

/-- the data that scripts are preprocessed with -/
def noData : String → Option String := fun _ => none

/-- what is printed without data: every dollar sign starts a name in braces, and no brace that closes stands before one;
but once a name is not closed, nothing more is looked at. A scan, in a name or outside of one, past a `lone` dollar sign
or not. -/
def Template : (inName lone : Bool) → List Char → Prop
  | true, _, [] => True
  | true, lone, c :: rest => if c = '}' then Template false lone rest else Template true lone rest
  | false, lone, [] => lone = false
  | false, lone, c :: rest =>
    if c = '$' then if rest.head? = some '{' then Template true lone rest else Template false true rest
    else if c = '}' then lone = false ∧ '$' ∉ rest
    else Template false lone rest

section
variable {s front back : List Char} {lone : Bool} {location : LocationInfo}

theorem template_dollar (rest : List Char) : Template false lone ('$' :: rest) ↔
    if rest.head? = some '{' then Template true lone rest else Template false true rest := by
  rw [Template, if_pos rfl]

theorem template_close (rest : List Char) : Template false lone ('}' :: rest) ↔ lone = false ∧ '$' ∉ rest := by
  rw [Template, if_neg (by decide), if_pos rfl]

theorem template_char {c : Char} (hdollar : c ≠ '$') (hclose : c ≠ '}') (rest : List Char) :
    Template false lone (c :: rest) ↔ Template false lone rest := by
  rw [Template, if_neg hdollar, if_neg hclose]

/-- where a pair would have to start in a text without one -/
theorem not_pair_of_cut (h : cut ['$', '{'] s = some (front, back)) {c : Char} (hc : c ≠ '{') :
    ¬ ['$', '{'] <:+: front ++ [c] := by
  rw [Core.pair_append_iff]
  rintro (hfront | hlast | ⟨_, hhead⟩)
  · exact Core.not_infix_of_cut (by decide) h hfront
  · exact absurd hlast.length_le (by simp)
  · exact hc (Option.some.inj hhead)

/-- a dollar sign in front of what is not a name in braces -/
theorem head_of_not_pair (h : ¬ ['$', '{'] <:+: '$' :: (front ++ back.take 1)) : (front ++ back).head? ≠ some '{' := by
  intro hhead
  refine h (List.IsPrefix.isInfix ?_)
  rw [List.cons_prefix_cons]
  refine ⟨rfl, ?_⟩
  obtain ⟨more, hmore⟩ := List.head?_eq_some_iff.mp hhead
  cases front with
  | nil =>
    rw [show back = '{' :: more from hmore]
    exact List.prefix_rfl
  | cons d front =>
    obtain ⟨rfl, _⟩ := List.cons.inj hmore
    exact List.prefix_append _ _

/-- **A text in front.** Without names in braces and braces that close, only its dollar signs count. -/
theorem template_append (hpair : ¬ ['$', '{'] <:+: front ++ back.take 1) (hclose : '}' ∉ front) :
    Template false lone (front ++ back) ↔ Template false (lone || decide ('$' ∈ front)) back := by
  induction front generalizing lone with
  | nil => simp
  | cons c front ih =>
    rw [List.cons_append] at hpair ⊢
    obtain ⟨hc, hfront⟩ := not_or.mp (List.mem_cons.not.mp hclose)
    have hrest := fun h => hpair (List.infix_cons h)
    by_cases hdollar : c = '$'
    · obtain rfl := hdollar
      rw [template_dollar, if_neg (head_of_not_pair hpair), ih hrest hfront]
      simp
    · rw [template_char hdollar (Ne.symm hc), ih hrest hfront]
      simp [Ne.symm hdollar]

theorem template_cut (h : cut ['$', '{'] s = some (front, back)) (hfront : '}' ∉ front) :
    Template false lone s ↔ Template true (lone || decide ('$' ∈ front)) back := by
  have hs : s = front ++ '$' :: '{' :: back := by simpa using Core.eq_of_cut h
  have hpair : ¬ ['$', '{'] <:+: front ++ ('$' :: '{' :: back).take 1 := not_pair_of_cut h (by decide)
  rw [hs, template_append hpair hfront, template_dollar, List.head?_cons, if_pos rfl, Template, if_neg (by decide)]

/-- after a brace that closes, no name can be opened -/
theorem template_closed (hpair : ¬ ['$', '{'] <:+: front ++ ['}']) (hfront : '}' ∉ front) :
    Template false lone (front ++ '}' :: back) ↔ lone = false ∧ '$' ∉ front ∧ '$' ∉ back := by
  rw [template_append hpair hfront, template_close]
  simp [and_assoc]

theorem not_template_of_closed (h : cut ['$', '{'] s = some (front, back)) (hfront : '}' ∈ front) :
    ¬ Template false lone s := by
  have hs : s = front ++ '$' :: '{' :: back := by simpa using Core.eq_of_cut h
  cases hclose : cut ['}'] front with
  | none => exact absurd hfront (Core.cut_singleton_eq_none_iff.mp hclose)
  | some parts =>
    obtain ⟨before, after⟩ := parts
    obtain rfl : front = before ++ '}' :: after := by simpa using Core.eq_of_cut hclose
    have hpair : ¬ ['$', '{'] <:+: before ++ ['}'] := fun hpair =>
      Core.not_infix_of_cut (by decide) h (hpair.trans ⟨[], after, by simp⟩)
    rw [hs, List.append_assoc, List.cons_append, template_closed hpair (Core.not_mem_of_cut_singleton hclose)]
    simp

theorem template_plain (h : cut ['$', '{'] s = none) : Template false lone s ↔ lone = false ∧ '$' ∉ s := by
  have hpair := Core.cut_eq_none_iff.mp h
  cases hclose : cut ['}'] s with
  | none =>
    have hall := @template_append s [] lone (by simpa using hpair) (Core.cut_singleton_eq_none_iff.mp hclose)
    rw [List.append_nil] at hall
    rw [hall, Template]
    simp
  | some parts =>
    obtain ⟨before, after⟩ := parts
    obtain rfl : s = before ++ '}' :: after := by simpa using Core.eq_of_cut hclose
    have hpair' : ¬ ['$', '{'] <:+: before ++ ['}'] := fun h => hpair (h.trans ⟨[], after, by simp⟩)
    rw [template_closed hpair' (Core.not_mem_of_cut_singleton hclose)]
    simp

theorem template_name {name rest : List Char} (h : cut ['}'] s = some (name, rest)) :
    Template true lone s ↔ Template false lone rest := by
  induction s generalizing name with
  | nil => exact absurd h (by simp [cut])
  | cons c s ih =>
    rw [cut] at h
    rw [Template]
    by_cases hclose : c = '}'
    · rw [if_pos (by simp [List.isPrefixOf, hclose])] at h
      obtain ⟨_, rfl⟩ := Prod.mk.inj (Option.some.inj h)
      rw [if_pos hclose]
      rfl
    · rw [if_neg (by simpa [List.isPrefixOf] using Ne.symm hclose)] at h
      obtain ⟨parts, hparts, heq⟩ := Option.map_eq_some_iff.mp h
      obtain ⟨_, rfl⟩ := Prod.mk.inj heq
      rw [if_neg hclose]
      exact ih hparts

theorem template_unclosed (h : '}' ∉ s) : Template true lone s := by
  induction s with
  | nil => trivial
  | cons c s ih =>
    obtain ⟨hclose, hrest⟩ := not_or.mp (List.mem_cons.not.mp h)
    rw [Template, if_neg (Ne.symm hclose)]
    exact ih hrest

/-- a text in place of a name -/
theorem template_replaced (h : cut ['$', '{'] s = some (front, back)) (hfront : '}' ∉ front) (rest : List Char) :
    Template false lone (front ++ "ERROR".toList ++ rest) ↔
      Template false (lone || decide ('$' ∈ front)) rest := by
  have hpair : ¬ ['$', '{'] <:+: front ++ ("ERROR".toList ++ rest).take 1 := not_pair_of_cut h (by decide)
  rw [List.append_assoc, template_append hpair hfront]
  simp [Template]

/-- without data, the loop fails at a dollar sign that no name is opened by -/
theorem printTurn_dollar (hname : cut ['$', '{'] s = none) (hdollar : '$' ∈ s) :
    ∃ e, printTurn noData location s = .error e := by
  cases hcut : cut ['$'] s with
  | none => exact absurd hdollar (Core.cut_singleton_eq_none_iff.mp hcut)
  | some parts =>
    obtain ⟨front, back⟩ := parts
    have hs : s = front ++ '$' :: back := by rw [Core.eq_of_cut hcut]; simp
    have hfrom : sliceFrom s (utf8Length front) = some ('$' :: back) := by rw [hs, Core.sliceFrom_append]
    have hto : sliceTo s (utf8Length front) = some front := by rw [hs, Core.sliceTo_append]
    rw [printTurn]
    simp only [find, hname, hcut, hfrom, hto, Option.map_none, Option.map_some, unwrap_some, bind, Except.bind]
    cases cut [' '] ('$' :: back) with
    | none => cases sliceFrom s (utf8Length front + 1) <;> exact ⟨_, rfl⟩
    | some parts =>
      simp only [Option.map_some]
      cases slice s (utf8Length front + 1) (utf8Length parts.1) <;> exact ⟨_, rfl⟩

/-- **One turn of printing.** It ends the loop, puts a text in place of a name, or fails. -/
theorem printTurn_cases (location : LocationInfo) (s : List Char) :
    (∃ e, printTurn noData location s = .error e ∧ ¬ Template false false s) ∨
      (printTurn noData location s = .ok (.inr ()) ∧ Template false false s) ∨
      ∃ s', printTurn noData location s = .ok (.inl s') ∧ (Template false false s ↔ Template false false s') ∧
        s'.count '$' < s.count '$' := by
  cases hname : cut ['$', '{'] s with
  | none =>
    by_cases hdollar : '$' ∈ s
    · obtain ⟨e, he⟩ := printTurn_dollar hname hdollar
      exact Or.inl ⟨e, he, fun h => ((template_plain hname).mp h).2 hdollar⟩
    · have hend := printTurn_plain noData location hdollar
      exact Or.inr (Or.inl ⟨hend, (template_plain hname).mpr ⟨rfl, hdollar⟩⟩)
  | some parts =>
    obtain ⟨front, back⟩ := parts
    have hs := Core.eq_of_cut hname
    by_cases hclosed : '}' ∈ s
    · by_cases hfront : '}' ∈ front
      · -- the brace that closes is before the one that opens
        exact Or.inl ⟨.panic, printTurn_closed noData location hname hfront, not_template_of_closed hname hfront⟩
      · have hback : '}' ∈ back := by
          rw [hs] at hclosed
          simpa [hfront] using hclosed
        cases hcut : cut ['}'] back with
        | none => exact absurd hback (Core.cut_singleton_eq_none_iff.mp hcut)
        | some parts =>
          obtain ⟨name, rest⟩ := parts
          obtain rfl : back = name ++ '}' :: rest := by rw [Core.eq_of_cut hcut]; simp
          have hs' : s = front ++ '$' :: '{' :: (name ++ '}' :: rest) := by rw [hs]; simp
          have hturn : printTurn noData location s = .ok (.inl (front ++ "ERROR".toList ++ rest)) :=
            printTurn_braced noData location hname hfront (Core.not_mem_of_cut_singleton hcut)
          refine Or.inr (Or.inr ⟨_, hturn, ?_, ?_⟩)
          · rw [template_cut hname hfront, template_name hcut, template_replaced hname hfront]
          · have herror : "ERROR".toList.count '$' = 0 := by decide
            rw [hs']
            simp only [List.count_append, List.count_cons, herror, beq_self_eq_true, if_true]
            omega
    · have hpair : ['$', '{'] <:+: s := ⟨front, back, hs.symm⟩
      have hend := printTurn_open noData location hpair hclosed
      have hfront : '}' ∉ front := fun h => hclosed (by rw [hs]; simp [h])
      have hback : '}' ∉ back := fun h => hclosed (by rw [hs]; simp [h])
      exact Or.inr (Or.inl ⟨hend, (template_cut hname hfront).mpr (template_unclosed hback)⟩)

/-- the loop of `run_print` ends without data -/
theorem print_ends {turns : ℕ} (h : s.count '$' < turns) :
    ∃ r, Core.loop (printTurn noData location) turns s = some r := by
  refine Core.loop_ends (fun s s' hturn => ?_) h
  rcases printTurn_cases location s with ⟨e, he, _⟩ | ⟨he, _⟩ | ⟨s'', he, _, hlt⟩
  · exact absurd (he.symm.trans hturn) (by simp)
  · exact absurd (he.symm.trans hturn) (by simp)
  · obtain rfl := Sum.inl.inj (Except.ok.inj (he.symm.trans hturn))
    exact hlt

/-- **Printing.** The loop of `run_print` ends without an error exactly for a template. -/
theorem print_ok_iff {turns : ℕ} {r : Except Failure Unit}
    (h : Core.loop (printTurn noData location) turns s = some r) : (∃ a, r = .ok a) ↔ Template false false s := by
  refine Core.loop_ok_iff (fun s e hturn => ?_) (fun s a hturn => ?_) (fun s s' hturn => ?_) h
  · rcases printTurn_cases location s with ⟨_, _, hbad⟩ | ⟨he, _⟩ | ⟨s'', he, _⟩
    · exact hbad
    · exact absurd (he.symm.trans hturn) (by simp)
    · exact absurd (he.symm.trans hturn) (by simp)
  · rcases printTurn_cases location s with ⟨e, he, _⟩ | ⟨_, hgood⟩ | ⟨s'', he, _⟩
    · exact absurd (he.symm.trans hturn) (by simp)
    · exact hgood
    · exact absurd (he.symm.trans hturn) (by simp)
  · rcases printTurn_cases location s with ⟨e, he, _⟩ | ⟨he, _⟩ | ⟨s'', he, hiff, _⟩
    · exact absurd (he.symm.trans hturn) (by simp)
    · exact absurd (he.symm.trans hturn) (by simp)
    · obtain rfl := Sum.inl.inj (Except.ok.inj (he.symm.trans hturn))
      exact hiff

end

/-! ## Regions -/

/-- where an instruction stands -/
inductive Region where
  | outside
  | insideIf
  | insideElse
deriving DecidableEq, Repr

/-- where the instructions after a directive stand, none if it has no place there -/
def Region.next : Region → (name : String) → Option Region
  | .outside, "if" => some .insideIf
  | .insideIf, "else" => some .insideElse
  | .insideIf, "endif" | .insideElse, "endif" => some .outside
  | _, "if" | _, "else" | _, "endif" => none
  | region, _ => some region

/-- the conditional directives have their places, from an instruction on that stands in the region -/
def InPlace : Region → List Instruction → Prop
  | _, [] => True
  | region, i :: rest =>
    match i.type_ with
    | .directive ⟨none, _⟩ => False
    | .directive ⟨some name, _⟩ => ∃ next, region.next name = some next ∧ InPlace next rest
    | _ => InPlace region rest

/-- what is left: commands outside of conditionals, and other directives that are not in an `if` part -/
def kept : Region → List Instruction → List Instruction
  | _, [] => []
  | region, i :: rest =>
    match i.type_ with
    | .none_ => kept region rest
    | .command _ => if region = .outside then i :: kept region rest else kept region rest
    | .directive d =>
      if d.name = some "if" ∨ d.name = some "else" ∨ d.name = some "endif" then
        kept ((d.name.bind region.next).getD region) rest
      else if region = .insideIf then kept region rest
      else i :: kept region rest

theorem Region.next_other {name : String} (hif : name ≠ "if") (helse : name ≠ "else") (hend : name ≠ "endif")
    (region : Region) : region.next name = some region := by
  unfold next
  split <;> first | rfl | contradiction

theorem runConditionals_loop_iff (region : Region) (instructions out : List Instruction) :
    runConditionals.loop (region = .insideIf) (region = .insideElse) instructions = .ok out ↔
      InPlace region instructions ∧ out = kept region instructions := by
  induction instructions generalizing region out with
  | nil => exact ⟨fun h => ⟨trivial, (Except.ok.inj h).symm⟩, fun ⟨_, h⟩ => by rw [h]; rfl⟩
  | cons i rest ih =>
    obtain ⟨location, type_⟩ := i
    cases type_ with
    | none_ => exact ih region out
    | command proto =>
      rw [runConditionals.loop, InPlace, kept]
      dsimp only
      rw [bind_eq_ok]
      constructor
      · intro ⟨out', hout', h⟩
        obtain ⟨hplace, rfl⟩ := (ih region out').mp hout'
        refine ⟨hplace, (Except.ok.inj h).symm.trans ?_⟩
        cases region <;> rfl
      · intro ⟨hplace, h⟩
        refine ⟨kept region rest, (ih region _).mpr ⟨hplace, rfl⟩, ?_⟩
        rw [h]
        cases region <;> rfl
    | directive d =>
      obtain ⟨name, arguments⟩ := d
      cases name with
      | none => exact ⟨fun h => absurd h (by rintro ⟨⟩), fun h => False.elim h.1⟩
      | some name =>
        rw [runConditionals.loop, InPlace, kept]
        dsimp only
        rw [unwrap_some]
        by_cases hif : name = "if"
        · subst hif
          cases region with
          | outside => simpa [Region.next, bind, Except.bind] using ih .insideIf out
          | insideIf | insideElse => simp [Region.next, bind, Except.bind]
        by_cases helse : name = "else"
        · subst helse
          cases region with
          | insideIf => simpa [Region.next, bind, Except.bind] using ih .insideElse out
          | outside | insideElse => simp [Region.next, bind, Except.bind]
        by_cases hend : name = "endif"
        · subst hend
          cases region with
          | outside => simp [Region.next, bind, Except.bind]
          | insideIf | insideElse => simpa [Region.next, bind, Except.bind] using ih .outside out
        -- any other directive stays where it is, unless it is in an `if` part
        have hnext := Region.next_other hif helse hend region
        have hplace : (∃ next, region.next name = some next ∧ InPlace next rest) ↔ InPlace region rest :=
          ⟨fun ⟨_, h, hrest⟩ => Option.some.inj (hnext.symm.trans h) ▸ hrest, fun h => ⟨region, hnext, h⟩⟩
        rw [hplace]
        simp only [Option.some.injEq, hif, helse, hend, or_self, if_false, bind, Except.bind]
        cases hloop : runConditionals.loop (region = .insideIf) (region = .insideElse) rest with
        | error e =>
          refine ⟨fun h => absurd h (by simp), fun ⟨h, _⟩ => ?_⟩
          exact absurd (hloop.symm.trans ((ih region _).mpr ⟨h, rfl⟩)) (by simp)
        | ok out' =>
          obtain ⟨h, rfl⟩ := (ih region out').mp hloop
          rw [and_iff_right h]
          by_cases hinside : region = .insideIf
          · simp [hinside, eq_comm, pure, Except.pure]
          · simp [hinside, eq_comm, pure, Except.pure]

/-- the arguments of a `!print` that does not fail without data -/
def Printable (arguments : Option (List String)) : Prop :=
  ∃ text rest, arguments = some (text :: rest) ∧ Template false false text.toList

/-- a `!print` does not fail -/
def Instruction.Prints (i : Instruction) : Prop :=
  match i.type_ with
  | .directive d => d.name = some "print" → Printable d.arguments
  | _ => True

/-- what `!print` scans, no longer than the text it is given -/
def DirectivePrototype.size (d : DirectivePrototype) : ℕ :=
  ((d.arguments.bind List.head?).getD "").toList.length

theorem runPrint_ends {d : DirectivePrototype} (location : LocationInfo) {turns : ℕ} (h : d.size < turns) :
    ∃ r, runPrint noData turns d location = some r := by
  unfold runPrint
  split
  · rename_i printString rest harguments
    refine print_ends (lt_of_le_of_lt List.count_le_length ?_)
    simpa [DirectivePrototype.size, harguments] using h
  · exact ⟨_, rfl⟩

theorem runPrint_ok_iff {d : DirectivePrototype} {location : LocationInfo} {turns : ℕ} {r : Except Failure Unit}
    (h : runPrint noData turns d location = some r) : r = .ok () ↔ Printable d.arguments := by
  unfold runPrint at h
  split at h
  · rename_i printString rest harguments
    have hok : (∃ a, r = .ok a) ↔ r = .ok () := ⟨fun ⟨_, h⟩ => h, fun h => ⟨(), h⟩⟩
    rw [← hok, print_ok_iff h]
    constructor
    · intro htemplate
      exact ⟨printString, rest, harguments, htemplate⟩
    · intro ⟨text, rest', heq, htemplate⟩
      obtain ⟨rfl, rfl⟩ := List.cons.inj (Option.some.inj (harguments.symm.trans heq))
      exact htemplate
  · rename_i hnone
    rw [← Option.some.inj h]
    exact ⟨fun h => absurd h (by simp), fun ⟨text, rest, heq, _⟩ => absurd heq (hnone text rest)⟩

/-- the longest text that is scanned -/
def printSize : List Instruction → ℕ
  | [] => 0
  | i :: rest =>
    match i.type_ with
    | .directive d => max d.size (printSize rest)
    | _ => printSize rest

theorem runRemaining_ends {instructions : List Instruction} {turns : ℕ} (h : printSize instructions < turns) :
    ∃ r, runRemaining noData turns instructions = some r := by
  induction instructions with
  | nil => exact ⟨_, rfl⟩
  | cons i rest ih =>
    obtain ⟨location, type_⟩ := i
    cases type_ with
    | none_ | command proto => exact ih h
    | directive d =>
      have hsize : d.size < turns := lt_of_le_of_lt (le_max_left _ _) h
      obtain ⟨r', hr'⟩ := ih (lt_of_le_of_lt (le_max_right _ _) h)
      obtain ⟨r, hr⟩ := runPrint_ends location hsize
      rw [runRemaining]
      dsimp only
      cases d.name with
      | none => exact ⟨_, rfl⟩
      | some name =>
        dsimp only
        split_ifs
        · rw [hr]
          cases r with
          | error e => exact ⟨_, rfl⟩
          | ok u => exact ⟨r', hr'⟩
        · exact ⟨r', hr'⟩

theorem runRemaining_ok_iff {instructions : List Instruction} {turns : ℕ} {r : Except Failure Unit}
    (hnames : ∀ i ∈ instructions, ∀ d, i.type_ = .directive d → d.name ≠ none)
    (h : runRemaining noData turns instructions = some r) : r = .ok () ↔ ∀ i ∈ instructions, i.Prints := by
  induction instructions generalizing r with
  | nil =>
    rw [← Option.some.inj h]
    simp
  | cons i rest ih =>
    obtain ⟨location, type_⟩ := i
    have hrest : ∀ i ∈ rest, ∀ d, i.type_ = .directive d → d.name ≠ none :=
      fun i hi => hnames i (List.mem_cons_of_mem _ hi)
    rw [List.forall_mem_cons]
    cases type_ with
    | none_ | command proto => exact (ih hrest h).trans (and_iff_right trivial).symm
    | directive d =>
      obtain ⟨name, hname⟩ := Option.ne_none_iff_exists'.mp (hnames _ List.mem_cons_self d rfl)
      have hprints : Instruction.Prints ⟨location, .directive d⟩ ↔ (name = "print" → Printable d.arguments) := by
        show (d.name = some "print" → Printable d.arguments) ↔ _
        rw [hname, Option.some.injEq]
      rw [hprints]
      rw [runRemaining] at h
      simp only [hname] at h
      by_cases hprint : name = "print"
      · rw [if_pos hprint] at h
        cases hr : runPrint noData turns d location with
        | none =>
          rw [hr] at h
          exact absurd h (by simp)
        | some r' =>
          have hok := runPrint_ok_iff hr
          rw [hr] at h
          cases r' with
          | error e =>
            rw [← Option.some.inj h]
            exact ⟨fun h => absurd h (by simp), fun h => absurd (hok.mpr (h.1 hprint)) (by simp)⟩
          | ok u =>
            rw [ih hrest h]
            exact ⟨fun h => ⟨fun _ => hok.mp rfl, h⟩, And.right⟩
      · rw [if_neg hprint] at h
        rw [ih hrest h]
        exact ⟨fun h => ⟨fun heq => absurd heq hprint, h⟩, And.right⟩

/-! ## Preprocessing a text -/

/-- instructions that a text is parsed to: they have no path yet, and their directives have names -/
structure FromText (instructions : List Instruction) : Prop where
  source : ∀ i ∈ instructions, i.location.source = none
  named : ∀ i ∈ instructions, ∀ d, i.type_ = .directive d → d.name ≠ none

/-- the condition for preprocessing -/
structure Preprocessable (instructions : List Instruction) : Prop where
  /-- no includes -/
  noIncludes : ∀ i ∈ instructions, i.isInclude = false
  /-- `if`, `else` and `endif` have their places -/
  inPlace : InPlace .outside instructions
  /-- what is printed outside of `if` parts does not fail -/
  prints : ∀ i ∈ kept .outside instructions, i.Prints

/-- the turns that are enough for the loops -/
def enoughTurns (instructions : List Instruction) : ℕ := max instructions.length (printSize instructions) + 1

/-- empty instructions make no difference -/
theorem eliminateEmpty_same (region : Region) (instructions : List Instruction) :
    (InPlace region (eliminateEmpty instructions) ↔ InPlace region instructions) ∧
      kept region (eliminateEmpty instructions) = kept region instructions ∧
      printSize (eliminateEmpty instructions) = printSize instructions := by
  induction instructions generalizing region with
  | nil => exact ⟨Iff.rfl, rfl, rfl⟩
  | cons i rest ih =>
    obtain ⟨location, type_⟩ := i
    cases type_ with
    | none_ => exact ih region
    | command proto =>
      refine ⟨(ih region).1, ?_, (ih region).2.2⟩
      show (if region = .outside then _ :: kept region (eliminateEmpty rest) else kept region (eliminateEmpty rest)) = _
      rw [(ih region).2.1]
      rfl
    | directive d =>
      have hsize : printSize (eliminateEmpty rest) = printSize rest := (ih region).2.2
      refine ⟨?_, ?_, congrArg (max d.size) hsize⟩
      · obtain ⟨name, arguments⟩ := d
        cases name with
        | none => exact Iff.rfl
        | some name => exact exists_congr fun next => and_congr Iff.rfl (ih next).1
      · show (if _ then kept _ (eliminateEmpty rest) else if _ then kept region (eliminateEmpty rest)
          else _ :: kept region (eliminateEmpty rest)) = _
        rw [(ih _).2.1, (ih region).2.1]
        rfl

theorem kept_subset (region : Region) (instructions : List Instruction) : kept region instructions ⊆ instructions := by
  induction instructions generalizing region with
  | nil => exact List.Subset.refl _
  | cons i rest ih =>
    have hskip : ∀ region, kept region rest ⊆ i :: rest := fun region =>
      List.Subset.trans (ih region) (List.subset_cons_self i rest)
    have hkeep : i :: kept region rest ⊆ i :: rest := List.cons_subset_cons i (ih region)
    rw [kept]
    split
    · exact hskip region
    · split_ifs
      · exact hkeep
      · exact hskip region
    · split_ifs
      · exact hskip _
      · exact hskip region
      · exact hkeep

theorem printSize_le {instructions : List Instruction} {n : ℕ}
    (h : ∀ i ∈ instructions, ∀ d, i.type_ = .directive d → d.size ≤ n) : printSize instructions ≤ n := by
  induction instructions with
  | nil => exact Nat.zero_le n
  | cons i rest ih =>
    have hrest := ih fun i hi => h i (List.mem_cons_of_mem _ hi)
    rw [printSize]
    split
    · rename_i d hd
      exact max_le (h i List.mem_cons_self d hd) hrest
    · exact hrest

theorem size_le_printSize {instructions : List Instruction} {i : Instruction} (hi : i ∈ instructions)
    {d : DirectivePrototype} (hd : i.type_ = .directive d) : d.size ≤ printSize instructions := by
  induction instructions with
  | nil => exact absurd hi List.not_mem_nil
  | cons j rest ih =>
    rw [printSize]
    rcases List.mem_cons.mp hi with rfl | hi
    · rw [hd]
      exact le_max_left _ _
    · split
      · exact (ih hi).trans (le_max_right _ _)
      · exact ih hi

theorem noIncludes_eliminateEmpty (instructions : List Instruction) :
    (∀ i ∈ eliminateEmpty instructions, i.isInclude = false) ↔ ∀ i ∈ instructions, i.isInclude = false := by
  constructor
  · intro h i hi
    by_cases hempty : i.type_ = .none_
    · rw [Instruction.isInclude, hempty]
    · exact h i (List.mem_filter.mpr ⟨hi, by simpa using hempty⟩)
  · exact fun h i hi => h i (List.mem_filter.mp hi).1

/-- the passes after the includes, of which there are none -/
theorem preprocess_passes {instructions : List Instruction} (htext : FromText instructions) {turns : ℕ}
    (hturns : enoughTurns instructions ≤ turns) (hincludes : ∀ i ∈ instructions, i.isInclude = false) :
    ∃ r, preprocess noData turns instructions = some r ∧ ∀ out, r = .ok out ↔
      (InPlace .outside instructions ∧ ∀ i ∈ kept .outside instructions, i.Prints) ∧
        out = eliminateDirectives (kept .outside instructions) := by
  have hpos : 0 < turns := lt_of_lt_of_le (Nat.succ_pos _) hturns
  have hsource : ∀ i ∈ eliminateEmpty instructions, i.location.source = none :=
    fun i hi => htext.source i (List.mem_filter.mp hi).1
  have hloop : Core.loop includesTurn turns (eliminateEmpty instructions) = some (.ok (eliminateEmpty instructions)) :=
    (includes_iff hsource hpos).mpr ⟨(noIncludes_eliminateEmpty instructions).mpr hincludes, rfl⟩
  have hconditionals : ∀ out, runConditionals (eliminateEmpty instructions) = .ok out ↔
      InPlace .outside instructions ∧ out = kept .outside instructions := by
    intro out
    have h := runConditionals_loop_iff .outside (eliminateEmpty instructions) out
    rwa [(eliminateEmpty_same .outside instructions).1, (eliminateEmpty_same .outside instructions).2.1] at h
  unfold preprocess
  rw [hloop]
  dsimp only
  cases hcond : runConditionals (eliminateEmpty instructions) with
  | error e =>
    refine ⟨_, rfl, fun out => ⟨fun h => absurd h (by simp), fun ⟨⟨hplace, _⟩, _⟩ => ?_⟩⟩
    exact absurd (hcond.symm.trans ((hconditionals _).mpr ⟨hplace, rfl⟩)) (by simp)
  | ok out' =>
    obtain ⟨hplace, rfl⟩ := (hconditionals out').mp hcond
    have hsize : printSize (kept .outside instructions) < turns := by
      have hle : printSize (kept .outside instructions) ≤ printSize instructions :=
        printSize_le fun i hi d hd => size_le_printSize (kept_subset _ _ hi) hd
      have hmax := le_max_right instructions.length (printSize instructions)
      unfold enoughTurns at hturns
      omega
    obtain ⟨r, hr⟩ := runRemaining_ends hsize
    have hok := runRemaining_ok_iff (fun i hi => htext.named i (kept_subset _ _ hi)) hr
    dsimp only
    rw [hr]
    cases r with
    | error e =>
      refine ⟨_, rfl, fun out => ⟨fun h => absurd h (by simp), fun ⟨⟨_, hprints⟩, _⟩ => ?_⟩⟩
      exact absurd (hok.mpr hprints) (by simp)
    | ok u =>
      refine ⟨_, rfl, fun out => ⟨fun h => ⟨⟨hplace, hok.mp rfl⟩, (Except.ok.inj h).symm⟩, fun ⟨_, h⟩ => by rw [h]⟩⟩

/-- **Preprocessing.** A script from a text is preprocessed in so many turns, and without an error exactly under the
condition; then the commands outside of conditionals are left. -/
theorem preprocess_iff {instructions : List Instruction} (htext : FromText instructions) {turns : ℕ}
    (hturns : enoughTurns instructions ≤ turns) :
    ∃ r, preprocess noData turns instructions = some r ∧ ∀ out, r = .ok out ↔
      Preprocessable instructions ∧ out = eliminateDirectives (kept .outside instructions) := by
  have hiff : ∀ hincludes : ∀ i ∈ instructions, i.isInclude = false, Preprocessable instructions ↔
      InPlace .outside instructions ∧ ∀ i ∈ kept .outside instructions, i.Prints :=
    fun hincludes => ⟨fun h => ⟨h.inPlace, h.prints⟩, fun h => ⟨hincludes, h.1, h.2⟩⟩
  by_cases hincludes : ∀ i ∈ instructions, i.isInclude = false
  · rw [hiff hincludes]
    exact preprocess_passes htext hturns hincludes
  · have hpos : 0 < turns := lt_of_lt_of_le (Nat.succ_pos _) hturns
    have hlength : (eliminateEmpty instructions).length < turns := by
      have hle : (eliminateEmpty instructions).length ≤ instructions.length := List.length_filter_le _ _
      have hmax := le_max_left instructions.length (printSize instructions)
      unfold enoughTurns at hturns
      omega
    have hsource : ∀ i ∈ eliminateEmpty instructions, i.location.source = none :=
      fun i hi => htext.source i (List.mem_filter.mp hi).1
    obtain ⟨r, hr⟩ := includes_end hlength
    cases r with
    | ok included =>
      have h := ((includes_iff hsource hpos).mp hr).1
      exact absurd ((noIncludes_eliminateEmpty instructions).mp h) hincludes
    | error e =>
      refine ⟨.error e, ?_, fun out => ⟨fun h => absurd h (by simp), fun h => absurd h.1.noIncludes hincludes⟩⟩
      rw [preprocess, hr]

end BigWorlds.Machine
