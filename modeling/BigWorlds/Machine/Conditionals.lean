/-
Conditional directives (`machine/script/preprocessor.rs` `run_conditionals`).

Of a conditional no command is kept, in neither part, and the directives of its `else` part are. At the end of the list
an `if` part that is still open is not noticed, and what stands in it is gone.

- `exists_pieces_iff`: the well-formed lists are made of instructions and conditionals;
- `runConditionals_pieces_iff`, `runConditionals_error_iff`: what is left of such a list, and which lists are refused;
- `conditionals_iff`: when what stands outside and one branch of each conditional is kept, and other lists are refused.
-/
import BigWorlds.Machine.Preprocessor

namespace BigWorlds.Machine

/-! ## Well-formed lists -/

/-- a directive of this name -/
def Instruction.directs (i : Instruction) (name : String) : Bool :=
  match i.type_ with
  | .directive d => d.name = some name
  | _ => false

/-- no conditional directive -/
def Instruction.plain (i : Instruction) : Bool := !i.directs "if" && !i.directs "else" && !i.directs "endif"

/-- a directive has a name -/
def Instruction.named (i : Instruction) : Bool :=
  match i.type_ with
  | .directive d => d.name.isSome
  | _ => true

/-- a conditional that is not nested -/
structure Conditional where
  opening : Instruction
  body : List Instruction
  /-- the `else`, and what follows it -/
  otherwise : Option (Instruction × List Instruction)
  closing : Instruction
  opens : opening.directs "if" = true
  bodyPlain : ∀ i ∈ body, i.plain = true
  switches : ∀ part ∈ otherwise, part.1.directs "else" = true ∧ ∀ i ∈ part.2, i.plain = true
  closes : closing.directs "endif" = true

/-- what follows the `else`, nothing if there is none -/
def Conditional.otherwisePart (c : Conditional) : List Instruction := (c.otherwise.map Prod.snd).getD []

def Conditional.instructions (c : Conditional) : List Instruction :=
  c.opening :: c.body ++ (c.otherwise.map fun part => part.1 :: part.2).getD [] ++ [c.closing]

/-- what a well-formed list is made of -/
inductive Piece where
  | outside (i : Instruction) (plain : i.plain = true)
  | conditional (c : Conditional)

def Piece.instructions : Piece → List Instruction
  | .outside i _ => [i]
  | .conditional c => c.instructions

def joinedPieces (pieces : List Piece) : List Instruction := pieces.flatMap Piece.instructions

/-- the conditional directives are well formed and not nested, from an instruction on that stands in the region -/
def closed : Region → List Instruction → Bool
  | region, [] => region = .outside
  | region, i :: rest =>
    if i.directs "if" then region = .outside && closed .insideIf rest
    else if i.directs "else" then region = .insideIf && closed .insideElse rest
    else if i.directs "endif" then region ≠ .outside && closed .outside rest
    else closed region rest

section
variable {i : Instruction} {region : Region} {rest part : List Instruction}

theorem Instruction.plain_iff :
    i.plain = true ↔ i.directs "if" = false ∧ i.directs "else" = false ∧ i.directs "endif" = false := by
  unfold plain
  simp only [Bool.and_eq_true, Bool.not_eq_true', and_assoc]

theorem Instruction.directs_unique {name name' : String} (h : i.directs name = true) (hne : name ≠ name') :
    i.directs name' = false := by
  unfold directs at h ⊢
  split
  · rename_i d hd
    rw [hd] at h
    have hname : d.name = some name := of_decide_eq_true h
    exact decide_eq_false fun h' => hne (Option.some.inj (hname.symm.trans h'))
  · rfl

theorem closed_cons : closed region (i :: rest) =
    if i.directs "if" then region = .outside && closed .insideIf rest
    else if i.directs "else" then region = .insideIf && closed .insideElse rest
    else if i.directs "endif" then region ≠ .outside && closed .outside rest
    else closed region rest := rfl

theorem closed_plain (h : i.plain = true) : closed region (i :: rest) = closed region rest := by
  obtain ⟨hif, helse, hend⟩ := Instruction.plain_iff.1 h
  simp [closed_cons, hif, helse, hend]

theorem closed_if (h : i.directs "if" = true) : closed .outside (i :: rest) = closed .insideIf rest := by
  simp [closed_cons, h]

theorem closed_else (h : i.directs "else" = true) : closed .insideIf (i :: rest) = closed .insideElse rest := by
  simp [closed_cons, h, Instruction.directs_unique h (show "else" ≠ "if" by decide)]

theorem closed_endif (h : i.directs "endif" = true) (hregion : region ≠ .outside) :
    closed region (i :: rest) = closed .outside rest := by
  simp [closed_cons, h, hregion, Instruction.directs_unique h (show "endif" ≠ "if" by decide),
    Instruction.directs_unique h (show "endif" ≠ "else" by decide)]

theorem closed_append_plain (h : ∀ i ∈ part, i.plain = true) : closed region (part ++ rest) = closed region rest := by
  induction part with
  | nil => rfl
  | cons i part ih =>
    rw [List.cons_append, closed_plain (h i List.mem_cons_self)]
    exact ih fun j hj => h j (List.mem_cons_of_mem i hj)

theorem closed_pieces (pieces : List Piece) : closed .outside (joinedPieces pieces) = true := by
  induction pieces with
  | nil => rfl
  | cons piece pieces ih =>
    rw [joinedPieces, List.flatMap_cons]
    cases piece with
    | outside i hplain =>
      rw [Piece.instructions, List.singleton_append, closed_plain hplain]
      exact ih
    | conditional c =>
      obtain ⟨opening, body, otherwise, closing, opens, bodyPlain, switches, closes⟩ := c
      rw [Piece.instructions, Conditional.instructions]
      cases otherwise with
      | none =>
        simp only [Option.map_none, Option.getD_none, List.append_nil, List.cons_append, List.append_assoc]
        rw [closed_if opens, closed_append_plain bodyPlain, List.nil_append, closed_endif closes (by decide)]
        exact ih
      | some part =>
        obtain ⟨hswitch, hplain⟩ := switches part rfl
        simp only [Option.map_some, Option.getD_some, List.cons_append, List.append_assoc]
        rw [closed_if opens, closed_append_plain bodyPlain, closed_else hswitch, closed_append_plain hplain,
          List.nil_append, closed_endif closes (by decide)]
        exact ih

/-- what a list says that is closed from a region on -/
def Splits : Region → List Instruction → Prop
  | .outside, l => ∃ pieces, l = joinedPieces pieces
  | .insideElse, l => ∃ part closing pieces, (∀ i ∈ part, i.plain = true) ∧ closing.directs "endif" = true ∧
      l = part ++ closing :: joinedPieces pieces
  | .insideIf, l => ∃ (body : List Instruction) (otherwise : Option (Instruction × List Instruction))
      (closing : Instruction) (pieces : List Piece), (∀ i ∈ body, i.plain = true) ∧
      (∀ part ∈ otherwise, part.1.directs "else" = true ∧ ∀ i ∈ part.2, i.plain = true) ∧
      closing.directs "endif" = true ∧
      l = body ++ (otherwise.map fun part => part.1 :: part.2).getD [] ++ closing :: joinedPieces pieces

theorem splits_of_closed (l : List Instruction) (h : closed region l = true) : Splits region l := by
  induction l generalizing region with
  | nil =>
    have hregion : region = .outside := of_decide_eq_true h
    subst hregion
    exact ⟨[], rfl⟩
  | cons i rest ih =>
    by_cases hif : i.directs "if" = true
    · have hregion : region = .outside := by
        simp only [closed_cons, hif, if_true, Bool.and_eq_true, decide_eq_true_eq] at h
        exact h.1
      subst hregion
      rw [closed_if hif] at h
      obtain ⟨body, otherwise, closing, pieces, hbody, hotherwise, hclosing, rfl⟩ := ih h
      exact ⟨.conditional ⟨i, body, otherwise, closing, hif, hbody, hotherwise, hclosing⟩ :: pieces,
        by simp [joinedPieces, Piece.instructions, Conditional.instructions]⟩
    have hif' : i.directs "if" = false := by simpa using hif
    by_cases helse : i.directs "else" = true
    · have hregion : region = .insideIf := by
        simp only [closed_cons, hif', helse, if_true, Bool.and_eq_true, decide_eq_true_eq, Bool.false_eq_true,
          if_false] at h
        exact h.1
      subst hregion
      rw [closed_else helse] at h
      obtain ⟨part, closing, pieces, hpart, hclosing, rfl⟩ := ih h
      refine ⟨[], some (i, part), closing, pieces, by simp, ?_, hclosing, by simp⟩
      intro part' hpart'
      obtain rfl := Option.some.inj hpart'
      exact ⟨helse, hpart⟩
    have helse' : i.directs "else" = false := by simpa using helse
    by_cases hend : i.directs "endif" = true
    · have hregion : region ≠ .outside := by
        simp only [closed_cons, hif', helse', hend, if_true, Bool.and_eq_true, decide_eq_true_eq, Bool.false_eq_true,
          if_false] at h
        exact h.1
      rw [closed_endif hend hregion] at h
      obtain ⟨pieces, rfl⟩ := ih h
      cases region with
      | outside => exact absurd rfl hregion
      | insideIf => exact ⟨[], none, i, pieces, by simp, by simp, hend, by simp⟩
      | insideElse => exact ⟨[], i, pieces, by simp, hend, by simp⟩
    have hplain : i.plain = true := Instruction.plain_iff.2 ⟨hif', helse', by simpa using hend⟩
    have hcons : ∀ part : List Instruction, (∀ j ∈ part, j.plain = true) → ∀ j ∈ i :: part, j.plain = true :=
      fun part hpart => List.forall_mem_cons.mpr ⟨hplain, hpart⟩
    rw [closed_plain hplain] at h
    cases region with
    | outside =>
      obtain ⟨pieces, rfl⟩ := ih h
      exact ⟨.outside i hplain :: pieces, rfl⟩
    | insideIf =>
      obtain ⟨body, otherwise, closing, pieces, hbody, hotherwise, hclosing, rfl⟩ := ih h
      exact ⟨i :: body, otherwise, closing, pieces, hcons body hbody, hotherwise, hclosing, rfl⟩
    | insideElse =>
      obtain ⟨part, closing, pieces, hpart, hclosing, rfl⟩ := ih h
      exact ⟨i :: part, closing, pieces, hcons part hpart, hclosing, rfl⟩

/-- the lists made of instructions and conditionals are those that are closed -/
theorem exists_pieces_iff (instructions : List Instruction) :
    (∃ pieces, instructions = joinedPieces pieces) ↔ closed .outside instructions = true := by
  constructor
  · rintro ⟨pieces, rfl⟩
    exact closed_pieces pieces
  · intro h
    exact splits_of_closed instructions h

end

/-! ## What is left of a well-formed list -/

/-- what is left of a piece -/
def Piece.left : Piece → List Instruction
  | .outside i _ => eliminateEmpty [i]
  | .conditional c => c.otherwisePart.filter Instruction.isDirective

section
variable {i : Instruction} {region next : Region} {name : String} {instructions rest part : List Instruction}

theorem Instruction.directs_eq_true_iff :
    i.directs name = true ↔ ∃ arguments, i.type_ = .directive ⟨some name, arguments⟩ := by
  unfold directs
  constructor
  · intro h
    split at h
    · rename_i d hd
      obtain ⟨name', arguments⟩ := d
      have hname : name' = some name := of_decide_eq_true h
      exact ⟨arguments, by rw [hd, hname]⟩
    · exact absurd h (by simp)
  · rintro ⟨arguments, h⟩
    rw [h]
    simp

theorem inPlace_directs (h : i.directs name = true) (hnext : region.next name = some next) :
    InPlace region (i :: rest) ↔ InPlace next rest := by
  obtain ⟨arguments, h⟩ := Instruction.directs_eq_true_iff.1 h
  rw [InPlace, h]
  constructor
  · rintro ⟨next', hnext', hrest⟩
    exact Option.some.inj (hnext'.symm.trans hnext) ▸ hrest
  · intro hrest
    exact ⟨next, hnext, hrest⟩

theorem kept_directs (h : i.directs name = true) (hname : name = "if" ∨ name = "else" ∨ name = "endif")
    (hnext : region.next name = some next) : kept region (i :: rest) = kept next rest := by
  obtain ⟨arguments, h⟩ := Instruction.directs_eq_true_iff.1 h
  have hsome : some name = some "if" ∨ some name = some "else" ∨ some name = some "endif" := by simpa using hname
  rw [kept, h]
  dsimp only
  rw [if_pos hsome, Option.bind_some, hnext, Option.getD_some]

theorem inPlace_plain (h : i.plain = true) :
    InPlace region (i :: rest) ↔ i.named = true ∧ InPlace region rest := by
  obtain ⟨location, type_⟩ := i
  cases type_ with
  | none_ | command proto => exact (and_iff_right rfl).symm
  | directive d =>
    obtain ⟨name, arguments⟩ := d
    cases name with
    | none => exact ⟨False.elim, fun h => absurd h.1 (by simp [Instruction.named])⟩
    | some name =>
      obtain ⟨hif, helse, hend⟩ : name ≠ "if" ∧ name ≠ "else" ∧ name ≠ "endif" := by
        simpa [Instruction.plain_iff, Instruction.directs] using h
      have hnext := Region.next_other hif helse hend region
      refine ⟨fun ⟨next, h, hrest⟩ => ⟨rfl, Option.some.inj (hnext.symm.trans h) ▸ hrest⟩, ?_⟩
      exact fun h => ⟨region, hnext, h.2⟩

/-- a plain instruction is left where the region leaves it -/
theorem kept_plain (h : i.plain = true) : kept region (i :: rest) =
    (match region with
      | .outside => eliminateEmpty [i]
      | .insideIf => []
      | .insideElse => [i].filter Instruction.isDirective) ++ kept region rest := by
  obtain ⟨location, type_⟩ := i
  cases type_ with
  | none_ | command proto => cases region <;> rfl
  | directive d =>
    have hname : ¬ (d.name = some "if" ∨ d.name = some "else" ∨ d.name = some "endif") := by
      simpa [Instruction.plain_iff, Instruction.directs, not_or] using h
    rw [kept]
    dsimp only
    rw [if_neg hname]
    cases region <;> rfl

theorem inPlace_append_plain (h : ∀ i ∈ part, i.plain = true) :
    InPlace region (part ++ rest) ↔ (∀ i ∈ part, i.named = true) ∧ InPlace region rest := by
  induction part with
  | nil => simp
  | cons i part ih =>
    obtain ⟨hi, hpart⟩ := List.forall_mem_cons.mp h
    rw [List.cons_append, inPlace_plain hi, ih hpart, List.forall_mem_cons, and_assoc]

theorem kept_insideIf (h : ∀ i ∈ part, i.plain = true) : kept .insideIf (part ++ rest) = kept .insideIf rest := by
  induction part with
  | nil => rfl
  | cons i part ih =>
    obtain ⟨hi, hpart⟩ := List.forall_mem_cons.mp h
    rw [List.cons_append, kept_plain hi, ih hpart]
    rfl

theorem kept_insideElse (h : ∀ i ∈ part, i.plain = true) :
    kept .insideElse (part ++ rest) = part.filter Instruction.isDirective ++ kept .insideElse rest := by
  induction part with
  | nil => rfl
  | cons i part ih =>
    obtain ⟨hi, hpart⟩ := List.forall_mem_cons.mp h
    rw [List.cons_append, kept_plain hi, ih hpart, ← List.append_assoc, ← List.filter_append]
    rfl

theorem named_of_directs (h : i.directs name = true) : i.named = true := by
  obtain ⟨arguments, h⟩ := Instruction.directs_eq_true_iff.1 h
  rw [Instruction.named, h]
  rfl

/-- **Pieces.** A piece stands in its place if its directives have names, and no command is left of a conditional. -/
theorem piece_append (piece : Piece) (rest : List Instruction) :
    (InPlace .outside (piece.instructions ++ rest) ↔
        (∀ i ∈ piece.instructions, i.named = true) ∧ InPlace .outside rest) ∧
      kept .outside (piece.instructions ++ rest) = piece.left ++ kept .outside rest := by
  cases piece with
  | outside i hplain =>
    refine ⟨?_, kept_plain hplain⟩
    rw [Piece.instructions, List.singleton_append, inPlace_plain hplain]
    simp
  | conditional c =>
    obtain ⟨opening, body, otherwise, closing, opens, bodyPlain, switches, closes⟩ := c
    have hopens := named_of_directs opens
    have hcloses := named_of_directs closes
    cases otherwise with
    | none =>
      constructor
      · simp only [Piece.instructions, Conditional.instructions, Option.map_none, Option.getD_none, List.append_nil,
          List.cons_append, List.append_assoc, List.nil_append]
        rw [inPlace_directs opens rfl, inPlace_append_plain bodyPlain, inPlace_directs closes rfl]
        simp [hopens, hcloses, or_imp, forall_and]
      · simp only [Piece.instructions, Conditional.instructions, Option.map_none, Option.getD_none, List.append_nil,
          List.cons_append, List.append_assoc, List.nil_append]
        rw [kept_directs opens (by simp) rfl, kept_insideIf bodyPlain, kept_directs closes (by simp) rfl]
        rfl
    | some part =>
      obtain ⟨hswitch, hplain⟩ := switches part rfl
      have hswitches := named_of_directs hswitch
      constructor
      · simp only [Piece.instructions, Conditional.instructions, Option.map_some, Option.getD_some,
          List.cons_append, List.append_assoc, List.nil_append]
        rw [inPlace_directs opens rfl, inPlace_append_plain bodyPlain, inPlace_directs hswitch rfl,
          inPlace_append_plain hplain, inPlace_directs closes rfl]
        simp [hopens, hcloses, hswitches, or_imp, forall_and, and_assoc]
      · simp only [Piece.instructions, Conditional.instructions, Option.map_some, Option.getD_some,
          List.cons_append, List.append_assoc, List.nil_append]
        rw [kept_directs opens (by simp) rfl, kept_insideIf bodyPlain, kept_directs hswitch (by simp) rfl,
          kept_insideElse hplain, kept_directs closes (by simp) rfl]
        rfl

theorem runConditionals_eq_ok_iff {out : List Instruction} :
    runConditionals instructions = .ok out ↔ InPlace .outside instructions ∧ out = kept .outside instructions :=
  runConditionals_loop_iff .outside instructions out

/-- what is left of a well-formed list, if its directives have names -/
theorem runConditionals_pieces_iff (pieces : List Piece) (out : List Instruction) :
    runConditionals (joinedPieces pieces) = .ok out ↔
      (∀ i ∈ joinedPieces pieces, i.named = true) ∧ out = pieces.flatMap Piece.left := by
  have hall : (InPlace .outside (joinedPieces pieces) ↔ ∀ i ∈ joinedPieces pieces, i.named = true) ∧
      kept .outside (joinedPieces pieces) = pieces.flatMap Piece.left := by
    induction pieces with
    | nil => exact ⟨⟨fun _ i hi => absurd hi List.not_mem_nil, fun _ => trivial⟩, rfl⟩
    | cons piece pieces ih =>
      obtain ⟨hplace, hkept⟩ := piece_append piece (joinedPieces pieces)
      rw [joinedPieces, List.flatMap_cons, List.flatMap_cons, ← ih.2, ← hkept, List.forall_mem_append]
      exact ⟨hplace.trans (and_congr Iff.rfl ih.1), rfl⟩
  rw [runConditionals_eq_ok_iff, hall.1, hall.2]

end

/-! ## Refused lists -/

/-- a conditional directive without a place there comes, and directives up to it have names -/
def Stray : Region → List Instruction → Prop
  | _, [] => False
  | region, i :: rest =>
    match i.type_ with
    | .directive ⟨none, _⟩ => False
    | .directive ⟨some name, _⟩ => ∀ next, region.next name = some next → Stray next rest
    | _ => Stray region rest

section
variable {α : Type}

/-- an error, and no panic -/
def Refused (x : Except Failure α) : Prop := ∃ location kind, x = .error (.error location kind)

theorem refused_error (location : LocationInfo) (kind : ErrorKind) :
    Refused (.error (.error location kind) : Except Failure α) := ⟨location, kind, rfl⟩

theorem not_refused_ok (a : α) : ¬ Refused (.ok a : Except Failure α) := by
  rintro ⟨_, _, ⟨⟩⟩

theorem not_refused_panic : ¬ Refused (.error .panic : Except Failure α) := by
  rintro ⟨_, _, ⟨⟩⟩

theorem refused_bind_pure_iff {β : Type} {x : Except Failure α} {f : α → β} :
    Refused (do return f (← x)) ↔ Refused x := by
  unfold Refused
  cases x with
  | error e => simp [bind, Except.bind]
  | ok a => simp [bind, Except.bind, pure, Except.pure]

end

theorem runConditionals_loop_refused_iff (region : Region) (instructions : List Instruction) :
    Refused (runConditionals.loop (region = .insideIf) (region = .insideElse) instructions) ↔
      Stray region instructions := by
  induction instructions generalizing region with
  | nil => exact iff_of_false (not_refused_ok []) id
  | cons i rest ih =>
    obtain ⟨location, type_⟩ := i
    cases type_ with
    | none_ => exact ih region
    | command proto =>
      rw [runConditionals.loop, Stray]
      dsimp only
      rw [refused_bind_pure_iff]
      exact ih region
    | directive d =>
      obtain ⟨name, arguments⟩ := d
      cases name with
      | none => exact iff_of_false not_refused_panic id
      | some name =>
        rw [runConditionals.loop, Stray]
        dsimp only
        rw [unwrap_some]
        have hstray : ∀ text, Refused (.error (.error location (.errorProcessingDirective text)) :
            Except Failure (List Instruction)) := fun text => refused_error _ _
        by_cases hif : name = "if"
        · subst hif
          cases region with
          | outside => simpa [Region.next, bind, Except.bind] using ih .insideIf
          | insideIf | insideElse => simpa [Region.next, bind, Except.bind] using hstray _
        by_cases helse : name = "else"
        · subst helse
          cases region with
          | insideIf => simpa [Region.next, bind, Except.bind] using ih .insideElse
          | outside | insideElse => simpa [Region.next, bind, Except.bind] using hstray _
        by_cases hend : name = "endif"
        · subst hend
          cases region with
          | outside => simpa [Region.next, bind, Except.bind] using hstray _
          | insideIf | insideElse => simpa [Region.next, bind, Except.bind] using ih .outside
        have hnext := Region.next_other hif helse hend region
        have hplace : (∀ next, region.next name = some next → Stray next rest) ↔ Stray region rest :=
          ⟨fun h => h region hnext, fun h next hnext' => Option.some.inj (hnext.symm.trans hnext') ▸ h⟩
        rw [hplace, ← ih region]
        simp only [bind, Except.bind, if_neg hif, if_neg helse, if_neg hend]
        exact refused_bind_pure_iff

/-! ## Keeping one branch -/

/-- an instruction outside is kept, and of a conditional the commands and directives of one branch -/
def Piece.Keeps (out : List Instruction) : Piece → Prop
  | .outside i _ => out = [i]
  | .conditional c => out = eliminateEmpty c.body ∨ out = eliminateEmpty c.otherwisePart

/-- of a well-formed list everything outside is kept and, of each conditional, one branch; other lists are refused -/
structure Processed (instructions : List Instruction) : Prop where
  wellFormed : ∀ pieces, instructions = joinedPieces pieces → ∃ parts : List (List Instruction),
    runConditionals instructions = .ok parts.flatten ∧
      List.Forall₂ (fun piece part => runConditionals piece.instructions = .ok part ∧ piece.Keeps part) pieces parts
  refused : (∀ pieces, instructions ≠ joinedPieces pieces) → Refused (runConditionals instructions)

/-- no empty instruction stands outside, and no command in an `else` part, unless its directives are all that the other
part has -/
def Piece.Faithful : Piece → Prop
  | .outside i _ => i.type_ ≠ .none_
  | .conditional c => (∀ i ∈ c.otherwisePart, ∀ proto, i.type_ ≠ .command proto) ∨
      eliminateEmpty c.body = c.otherwisePart.filter Instruction.isDirective

/-- the condition for this -/
structure Processable (instructions : List Instruction) : Prop where
  named : ∀ pieces, instructions = joinedPieces pieces → ∀ i ∈ instructions, i.named = true
  faithful : ∀ pieces, instructions = joinedPieces pieces → ∀ piece ∈ pieces, piece.Faithful
  stray : closed .outside instructions = false → Stray .outside instructions

theorem directives_eq_iff (part : List Instruction) :
    part.filter Instruction.isDirective = eliminateEmpty part ↔ ∀ i ∈ part, ∀ proto, i.type_ ≠ .command proto := by
  unfold eliminateEmpty
  constructor
  · intro h i hi proto hproto
    have hmem : i ∈ part.filter fun i => i.type_ ≠ .none_ := List.mem_filter.mpr ⟨hi, by simp [hproto]⟩
    rw [← h] at hmem
    exact absurd (List.mem_filter.mp hmem).2 (by simp [Instruction.isDirective, hproto])
  · intro h
    refine List.filter_congr fun i hi => ?_
    obtain ⟨location, type_⟩ := i
    cases type_ with
    | command proto => exact absurd rfl (h _ hi proto)
    | none_ => rfl
    | directive d => rfl

theorem Piece.keeps_left_iff (piece : Piece) : piece.Keeps piece.left ↔ piece.Faithful := by
  cases piece with
  | outside i hplain =>
    by_cases hnone : i.type_ = .none_
    · simp [Keeps, left, Faithful, eliminateEmpty, hnone]
    · simp [Keeps, left, Faithful, eliminateEmpty, hnone]
  | conditional c =>
    show (_ = eliminateEmpty c.body ∨ _ = eliminateEmpty c.otherwisePart) ↔ (_ ∨ eliminateEmpty c.body = _)
    rw [← directives_eq_iff, or_comm]
    exact or_congr Iff.rfl eq_comm

/-- a piece by itself -/
theorem Piece.runConditionals_iff (piece : Piece) (out : List Instruction) :
    runConditionals piece.instructions = .ok out ↔ (∀ i ∈ piece.instructions, i.named = true) ∧ out = piece.left := by
  have hpieces := runConditionals_pieces_iff [piece] out
  rwa [joinedPieces, List.flatMap_singleton, List.flatMap_singleton] at hpieces

/-- the parts that are kept of pieces are what is left of them -/
theorem kept_parts_iff (pieces : List Piece) (parts : List (List Instruction)) :
    List.Forall₂ (fun piece part => runConditionals piece.instructions = .ok part ∧ piece.Keeps part) pieces parts ↔
      (∀ i ∈ joinedPieces pieces, i.named = true) ∧ (∀ piece ∈ pieces, piece.Faithful) ∧
        parts = pieces.map Piece.left := by
  induction pieces generalizing parts with
  | nil => simp [joinedPieces]
  | cons piece pieces ih =>
    rw [joinedPieces, List.flatMap_cons, List.forall_mem_append, List.forall_mem_cons, List.map_cons]
    constructor
    · intro h
      cases h with
      | cons hpiece hrest =>
        obtain ⟨hrun, hkeeps⟩ := hpiece
        obtain ⟨hnamed, rfl⟩ := (piece.runConditionals_iff _).mp hrun
        obtain ⟨hnamed', hfaithful, rfl⟩ := (ih _).mp hrest
        exact ⟨⟨hnamed, hnamed'⟩, ⟨piece.keeps_left_iff.mp hkeeps, hfaithful⟩, rfl⟩
    · rintro ⟨⟨hnamed, hnamed'⟩, ⟨hpiece, hfaithful⟩, rfl⟩
      exact .cons ⟨(piece.runConditionals_iff _).mpr ⟨hnamed, rfl⟩, piece.keeps_left_iff.mpr hpiece⟩
        ((ih _).mpr ⟨hnamed', hfaithful, rfl⟩)

theorem processed_pieces_iff (pieces : List Piece) :
    (∃ parts : List (List Instruction), runConditionals (joinedPieces pieces) = .ok parts.flatten ∧
        List.Forall₂ (fun piece part => runConditionals piece.instructions = .ok part ∧ piece.Keeps part)
          pieces parts) ↔
      (∀ i ∈ joinedPieces pieces, i.named = true) ∧ ∀ piece ∈ pieces, piece.Faithful := by
  constructor
  · rintro ⟨parts, _, hparts⟩
    obtain ⟨hnamed, hfaithful, _⟩ := (kept_parts_iff pieces parts).mp hparts
    exact ⟨hnamed, hfaithful⟩
  · rintro ⟨hnamed, hfaithful⟩
    refine ⟨pieces.map Piece.left, ?_, (kept_parts_iff pieces _).mpr ⟨hnamed, hfaithful, rfl⟩⟩
    rw [← List.flatMap_def]
    exact (runConditionals_pieces_iff pieces _).mpr ⟨hnamed, rfl⟩

/-- **Conditionals.** Of a list whose conditionals are well formed everything outside and one branch of each is kept,
and another list is refused, exactly if directives have names, no empty instruction stands outside, no command is lost
with an `else` part, and a list that is not well formed has a directive out of place. -/
theorem conditionals_iff (instructions : List Instruction) : Processed instructions ↔ Processable instructions := by
  have hclosed : (∀ pieces, instructions ≠ joinedPieces pieces) ↔ closed .outside instructions = false := by
    rw [← Bool.not_eq_true, ← exists_pieces_iff, not_exists]
  have hrefused : Refused (runConditionals instructions) ↔ Stray .outside instructions :=
    runConditionals_loop_refused_iff .outside instructions
  constructor
  · intro ⟨hwellFormed, hotherwise⟩
    refine ⟨fun pieces hpieces => ?_, fun pieces hpieces => ?_, fun h => hrefused.mp (hotherwise (hclosed.mpr h))⟩
    · subst hpieces
      exact ((processed_pieces_iff pieces).mp (hwellFormed pieces rfl)).1
    · subst hpieces
      exact ((processed_pieces_iff pieces).mp (hwellFormed pieces rfl)).2
  · intro ⟨hnamed, hfaithful, hstray⟩
    refine ⟨fun pieces hpieces => ?_, fun h => hrefused.mpr (hstray (hclosed.mp h))⟩
    subst hpieces
    exact (processed_pieces_iff pieces).mpr ⟨hnamed pieces rfl, hfaithful pieces rfl⟩

/-- the instruction of a directive, and a command -/
def directiveNamed (name : String) : Instruction := ⟨.empty, .directive ⟨some name, some []⟩⟩

def commandNamed (name : String) : Instruction := ⟨.empty, .command ⟨some name, some [], none⟩⟩

/-- a conditional with a command in each part -/
def chooseOne : Conditional where
  opening := directiveNamed "if"
  body := [commandNamed "a"]
  otherwise := some (directiveNamed "else", [commandNamed "b"])
  closing := directiveNamed "endif"
  opens := by decide
  bodyPlain := by decide
  switches := by
    rintro part hpart
    obtain rfl := Option.some.inj hpart
    decide
  closes := by decide

/-- neither command of a conditional is kept, and an `if` that is not closed is not refused -/
theorem conditionals_lost :
    ¬ Processed chooseOne.instructions ∧ ¬ Processed [directiveNamed "if", commandNamed "a"] := by
  constructor
  · intro h
    obtain ⟨parts, _, hparts⟩ := h.wellFormed [.conditional chooseOne] (by simp [joinedPieces, Piece.instructions])
    obtain ⟨_, hfaithful, _⟩ := (kept_parts_iff _ _).mp hparts
    rcases hfaithful _ List.mem_cons_self with hnone | hsame
    · exact hnone (commandNamed "b") (by decide) ⟨some "b", some [], none⟩ rfl
    · exact absurd hsame (by decide)
  · intro h
    obtain ⟨_, _, herror⟩ := h.refused fun pieces hpieces =>
      absurd ((exists_pieces_iff _).mp ⟨pieces, hpieces⟩) (by decide)
    exact absurd herror (by rintro ⟨⟩)

end BigWorlds.Machine
