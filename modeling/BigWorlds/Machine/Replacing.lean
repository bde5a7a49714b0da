/-
How `!print` replaces references, turn by turn (`machine/script/preprocessor.rs`).

A name without braces is read up to the index of the blank from the dollar sign on, used as an index from the start on:
as many bytes of the name are left out as stand in front of it.

- `printTurn_last`, `printTurn_read`, `printTurn_unread`: a turn at a name without braces;
- `printTurn_steps`: what every turn does;
- `substitute_runPrint`, `runPrint_of_substituted`: the loop with the string that it prints;
- `endsWith_braces_iff`: the turns at names in braces;
- `substituted_of_legible`: where every reference is replaced once.
-/
import BigWorlds.Machine.Preprocessor
import BigWorlds.Machine.References

namespace BigWorlds.Machine

open BigWorlds.Core (bind_eq_ok utf8Length sliceFrom sliceTo slice find cut EndsWith)

/-! ## A name without braces -/

section
variable (programData : String → Option String) (location : LocationInfo) {s front back name rest : List Char}

/-- there is no value for a name without braces -/
def noValue (location : LocationInfo) (name : List Char) : Failure :=
  .error location (.errorProcessingDirective ("no data: " ++ String.ofList name))

/-- the value of a name without braces -/
def bareValue (name : List Char) : Except Failure (List Char) :=
  (okOr (programData (String.ofList name)) (noValue location name)).map String.toList

/-- a name that no blank follows ends with the text -/
theorem printTurn_last (hpair : ¬ ['$', '{'] <:+: front ++ '$' :: name) (hfront : '$' ∉ front) (hname : ' ' ∉ name) :
    printTurn programData location (front ++ '$' :: name) =
      (bareValue programData location name).map fun val => .inl (front ++ val) := by
  have hcut : cut ['$'] (front ++ '$' :: name) = some (front, name) :=
    Core.cut_singleton hfront name
  have hblank : cut [' '] ('$' :: name) = none := by
    rw [Core.cut_singleton_eq_none_iff]
    simpa using hname
  have hafter : sliceFrom (front ++ '$' :: name) (utf8Length front + 1) = some name := by
    rw [Core.sliceFrom_eq_some_iff]
    exact ⟨front ++ ['$'], by simp, by rw [Core.utf8Length_append]; rfl⟩
  rw [printTurn]
  simp only [find, Core.cut_eq_none_iff.mpr hpair, hcut, hafter, Option.map_none, Option.map_some,
    Core.sliceFrom_append, Core.sliceTo_append, unwrap_some, bind, Except.bind, hblank, bareValue, noValue]
  cases programData (String.ofList name) <;> rfl

/-- what is read in front of a blank is the name without as many bytes as are in front of the dollar sign -/
theorem printTurn_read {read left : List Char} (hpair : ¬ ['$', '{'] <:+: front ++ '$' :: (read ++ left ++ ' ' :: rest))
    (hfront : '$' ∉ front) (hname : ' ' ∉ read ++ left) (hlen : utf8Length left = utf8Length front) :
    printTurn programData location (front ++ '$' :: (read ++ left ++ ' ' :: rest)) =
      (bareValue programData location read).map fun val => .inl (front ++ val ++ (left ++ ' ' :: rest)) := by
  have hcut : cut ['$'] (front ++ '$' :: (read ++ left ++ ' ' :: rest)) = some (front, read ++ left ++ ' ' :: rest) :=
    Core.cut_singleton hfront _
  have hblank : cut [' '] ('$' :: (read ++ left ++ ' ' :: rest)) = some ('$' :: (read ++ left), rest) := by
    have hnone : ' ' ∉ '$' :: (read ++ left) := by
      rw [List.mem_cons, not_or]
      exact ⟨by decide, hname⟩
    exact Core.cut_singleton hnone rest
  have hindex : utf8Length ('$' :: (read ++ left)) = utf8Length (front ++ '$' :: read) := by
    simp only [Core.utf8Length_cons, Core.utf8Length_append]
    omega
  have hsplit : front ++ '$' :: (read ++ left ++ ' ' :: rest) = (front ++ '$' :: read) ++ (left ++ ' ' :: rest) := by
    simp
  have hslice : slice (front ++ '$' :: (read ++ left ++ ' ' :: rest)) (utf8Length front + 1)
      (utf8Length (front ++ '$' :: read)) = some read := by
    have hstart : utf8Length front + 1 = utf8Length (front ++ ['$']) := by rw [Core.utf8Length_append]; rfl
    have hread : front ++ '$' :: read = (front ++ ['$']) ++ read := by simp
    have hle : utf8Length (front ++ ['$']) ≤ utf8Length (front ++ '$' :: read) := by
      rw [hread, @Core.utf8Length_append (front ++ ['$'])]
      exact Nat.le_add_right _ _
    rw [slice, hstart, if_pos hle, hsplit, Core.sliceTo_append, Option.bind_some, hread, Core.sliceFrom_append]
  have hafter : sliceFrom (front ++ '$' :: (read ++ left ++ ' ' :: rest)) (utf8Length (front ++ '$' :: read)) =
      some (left ++ ' ' :: rest) := by
    rw [hsplit, Core.sliceFrom_append]
  rw [printTurn]
  simp only [find, Core.cut_eq_none_iff.mpr hpair, hcut, Option.map_none, Option.map_some,
    Core.sliceFrom_append, Core.sliceTo_append, unwrap_some, bind, Except.bind, hblank, hindex, hslice, hafter,
    bareValue, noValue]
  cases programData (String.ofList read) <;> rfl

/-- and a panic if the name has no such bytes to leave out -/
theorem printTurn_unread (hpair : ¬ ['$', '{'] <:+: front ++ '$' :: (name ++ ' ' :: rest)) (hfront : '$' ∉ front)
    (hname : ' ' ∉ name) (hlen : ∀ read left, name = read ++ left → utf8Length left ≠ utf8Length front) :
    printTurn programData location (front ++ '$' :: (name ++ ' ' :: rest)) = .error .panic := by
  have hcut : cut ['$'] (front ++ '$' :: (name ++ ' ' :: rest)) = some (front, name ++ ' ' :: rest) :=
    Core.cut_singleton hfront _
  have hblank : cut [' '] ('$' :: (name ++ ' ' :: rest)) = some ('$' :: name, rest) := by
    have hnone : ' ' ∉ '$' :: name := by
      rw [List.mem_cons, not_or]
      exact ⟨by decide, hname⟩
    exact Core.cut_singleton hnone rest
  have hslice : slice (front ++ '$' :: (name ++ ' ' :: rest)) (utf8Length front + 1) (utf8Length ('$' :: name)) =
      none := by
    rw [slice]
    split_ifs with hle
    · rw [Option.bind_eq_none_iff]
      intro before hbefore
      rw [Option.eq_none_iff_forall_ne_some]
      intro read hread
      obtain ⟨after, hs, hbefore⟩ := Core.sliceTo_eq_some_iff.mp hbefore
      obtain ⟨start, rfl, hstart⟩ := Core.sliceFrom_eq_some_iff.mp hread
      have hsame : (front ++ ['$']) ++ (name ++ ' ' :: rest) = start ++ (read ++ after) := by simpa using hs
      have hstart' : utf8Length (front ++ ['$']) = utf8Length start := by
        rw [hstart, Core.utf8Length_append]
        rfl
      obtain ⟨rfl, hrest⟩ := Core.front_unique hsame hstart'
      rw [Core.utf8Length_append, hstart, Core.utf8Length_cons, show Char.utf8Size '$' = 1 from rfl] at hbefore
      rcases List.append_eq_append_iff.mp hrest with ⟨more, hread, _⟩ | ⟨left, hleft, _⟩
      · rw [hread, Core.utf8Length_append] at hbefore
        refine hlen name [] (by simp) ?_
        rw [Core.utf8Length_nil]
        omega
      · refine hlen read left hleft ?_
        rw [hleft, Core.utf8Length_append] at hbefore
        omega
    · rfl
  rw [printTurn]
  simp only [find, Core.cut_eq_none_iff.mpr hpair, hcut, Option.map_none, Option.map_some,
    Core.sliceFrom_append, Core.sliceTo_append, unwrap_some, bind, Except.bind, hblank, hslice, unwrap_none]

/-- a turn looks at one entry of the table at most -/
theorem printTurn_congr (s : List Char) : ∃ name, ∀ programData programData' : String → Option String,
    programData' name = programData name → printTurn programData' location s = printTurn programData location s := by
  cases hpair : find ['$', '{'] s with
  | some start =>
    cases hclose : find ['}'] s with
    | none => exact ⟨"", fun _ _ _ => by simp only [printTurn, hpair, hclose]⟩
    | some stop =>
      refine ⟨String.ofList ((slice s (start + 2) stop).getD []), ?_⟩
      intro programData programData' h
      simp only [printTurn, hpair, hclose]
      cases hname : slice s (start + 2) stop with
      | none => rfl
      | some name =>
        rw [hname, Option.getD_some] at h
        simp only [unwrap_some, bind, Except.bind, h]
  | none =>
    cases hdollar : find ['$'] s with
    | none => exact ⟨"", fun _ _ _ => by simp only [printTurn, hpair, hdollar]⟩
    | some start =>
      cases hfrom : sliceFrom s start with
      | none => exact ⟨"", fun _ _ _ => by simp only [printTurn, hpair, hdollar, hfrom]; rfl⟩
      | some fromStart =>
        cases hblank : find [' '] fromStart with
        | some stop =>
          refine ⟨String.ofList ((slice s (start + 1) stop).getD []), ?_⟩
          intro programData programData' h
          simp only [printTurn, hpair, hdollar, hfrom, unwrap_some, bind, Except.bind, hblank]
          cases hname : slice s (start + 1) stop with
          | none => rfl
          | some name =>
            rw [hname, Option.getD_some] at h
            simp only [unwrap_some, h]
        | none =>
          refine ⟨String.ofList ((sliceFrom s (start + 1)).getD []), ?_⟩
          intro programData programData' h
          simp only [printTurn, hpair, hdollar, hfrom, unwrap_some, bind, Except.bind, hblank]
          cases hname : sliceFrom s (start + 1) with
          | none => rfl
          | some name =>
            rw [hname, Option.getD_some] at h
            simp only [unwrap_some, h]

/-- **One turn.** It ends the loop, fails, or puts a value in place of what stands from a dollar sign on. -/
theorem printTurn_steps (s : List Char) :
    printTurn programData location s = .ok (.inr ()) ∨ printTurn programData location s = .error .panic ∨
      (∃ name, programData name = none ∧ ∃ e, printTurn programData location s = .error e) ∨
      ∃ front gone val rest, s = front ++ '$' :: (gone ++ rest) ∧
        printTurn programData location s = .ok (.inl (front ++ val ++ rest)) ∧
        (['$', '{'] <:+: s ∨ '$' ∉ front) ∧
        (val = "ERROR".toList ∨ ∃ name out, programData name = some out ∧ val = out.toList) := by
  have hvalue : ∀ {front gone name rest : List Char}, s = front ++ '$' :: (gone ++ rest) → '$' ∉ front →
      printTurn programData location s =
        (bareValue programData location name).map (fun val => .inl (front ++ val ++ rest)) →
      (∃ name, programData name = none ∧ ∃ e, printTurn programData location s = .error e) ∨
        ∃ front gone val rest, s = front ++ '$' :: (gone ++ rest) ∧
          printTurn programData location s = .ok (.inl (front ++ val ++ rest)) ∧
          (['$', '{'] <:+: s ∨ '$' ∉ front) ∧
          (val = "ERROR".toList ∨ ∃ name out, programData name = some out ∧ val = out.toList) := by
    intro front gone name rest hs hfront hturn
    rw [bareValue] at hturn
    cases hname : programData (String.ofList name) with
    | none =>
      rw [hname] at hturn
      exact Or.inl ⟨_, hname, _, hturn⟩
    | some out =>
      rw [hname] at hturn
      exact Or.inr ⟨front, gone, out.toList, rest, hs, hturn, Or.inr hfront, Or.inr ⟨_, out, hname, rfl⟩⟩
  cases hpair : cut ['$', '{'] s with
  | some parts =>
    obtain ⟨front, back⟩ := parts
    have hs : s = front ++ ['$', '{'] ++ back := Core.eq_of_cut hpair
    by_cases hfront : '}' ∈ front
    · exact Or.inr (Or.inl (printTurn_closed programData location hpair hfront))
    · cases hclose : cut ['}'] back with
      | none =>
        have hnone : '}' ∉ s := by simpa [hs, hfront] using Core.cut_singleton_eq_none_iff.mp hclose
        exact Or.inl (printTurn_open programData location ⟨front, back, hs.symm⟩ hnone)
      | some parts =>
        obtain ⟨name, rest⟩ := parts
        obtain rfl : back = name ++ '}' :: rest := by simpa using Core.eq_of_cut hclose
        have hturn := printTurn_braced programData location hpair hfront (Core.not_mem_of_cut_singleton hclose)
        refine Or.inr (Or.inr (Or.inr ⟨front, '{' :: (name ++ ['}']), _, rest, by simp [hs], hturn,
          Or.inl ⟨front, _, hs.symm⟩, ?_⟩))
        cases hname : programData (String.ofList name) with
        | none => exact Or.inl rfl
        | some out => exact Or.inr ⟨_, out, hname, rfl⟩
  | none =>
    have hpair := Core.cut_eq_none_iff.mp hpair
    cases hdollar : cut ['$'] s with
    | none => exact Or.inl (printTurn_plain programData location (Core.cut_singleton_eq_none_iff.mp hdollar))
    | some parts =>
      obtain ⟨front, back⟩ := parts
      have hfront := Core.not_mem_of_cut_singleton hdollar
      obtain rfl : s = front ++ '$' :: back := by simpa using Core.eq_of_cut hdollar
      cases hblank : cut [' '] back with
      | none =>
        have hname := Core.cut_singleton_eq_none_iff.mp hblank
        have hturn := printTurn_last programData location hpair hfront hname
        exact Or.inr (Or.inr (@hvalue front back back [] (by simp) hfront (by simpa using hturn)))
      | some parts =>
        obtain ⟨name, rest⟩ := parts
        have hname := Core.not_mem_of_cut_singleton hblank
        obtain rfl : back = name ++ ' ' :: rest := by simpa using Core.eq_of_cut hblank
        by_cases hread : ∃ read left, name = read ++ left ∧ utf8Length left = utf8Length front
        · obtain ⟨read, left, rfl, hlen⟩ := hread
          have hturn := printTurn_read programData location hpair hfront hname hlen
          exact Or.inr (Or.inr (hvalue (by rw [List.append_assoc]) hfront hturn))
        · refine Or.inr (Or.inl (printTurn_unread programData location hpair hfront hname ?_))
          intro read left hname hlen
          exact hread ⟨read, left, hname, hlen⟩

/-- a turn that goes on -/
theorem printTurn_next {s' : List Char} (h : printTurn programData location s = .ok (.inl s')) :
    ∃ front gone val rest, s = front ++ '$' :: (gone ++ rest) ∧ s' = front ++ val ++ rest ∧
      (['$', '{'] <:+: s ∨ '$' ∉ front) ∧
      (val = "ERROR".toList ∨ ∃ name out, programData name = some out ∧ val = out.toList) := by
  rcases printTurn_steps programData location s with hturn | hturn | ⟨_, _, _, hturn⟩ |
    ⟨front, gone, val, rest, hs, hturn, hfront, hval⟩
  · exact absurd (hturn.symm.trans h) (by simp)
  · exact absurd (hturn.symm.trans h) (by simp)
  · exact absurd (hturn.symm.trans h) (by simp)
  · exact ⟨front, gone, val, rest, hs, (Sum.inl.inj (Except.ok.inj (hturn.symm.trans h))).symm, hfront, hval⟩

/-- a turn fails without a panic only for a name that has no value -/
theorem printTurn_fails {e : Failure} (h : printTurn programData location s = .error e)
    (htable : ∀ name, programData name ≠ none) : e = .panic := by
  rcases printTurn_steps programData location s with hturn | hturn | ⟨name, hname, _⟩ | ⟨_, _, _, _, _, hturn, _⟩
  · exact absurd (hturn.symm.trans h) (by simp)
  · exact (Except.error.inj (hturn.symm.trans h)).symm
  · exact absurd hname (htable name)
  · exact absurd (hturn.symm.trans h) (by simp)

end

/-! ## The loop -/

section
variable (programData : String → Option String) (location : LocationInfo)

/-- one turn of the loop in `run_print`, with the string that is printed at the end -/
def substituteTurn (s : List Char) : Except Failure (List Char ⊕ List Char) :=
  (printTurn programData location s).map (Sum.map id fun _ => s)

/-- it is the loop of `run_print` -/
theorem substitute_runPrint (turns : ℕ) (s : List Char) :
    Core.loop (printTurn programData location) turns s =
      (Core.loop (substituteTurn programData location) turns s).map (Except.map fun _ => ()) := by
  refine Core.loop_map (g := id) (fun s => ?_) turns s
  rw [substituteTurn, id_eq]
  cases printTurn programData location s with
  | error e => rfl
  | ok next => cases next <;> rfl

/-- no panic, and a string that is printed is the one that is expected -/
def Replaced (expected : Option (List Char)) (r : Except Failure (List Char)) : Prop :=
  r ≠ .error .panic ∧ ∀ out, r = .ok out → expected = some out

theorem not_replaced_panic (expected : Option (List Char)) : ¬ Replaced expected (.error .panic) :=
  fun h => h.1 rfl

/-- the loop ends, without a panic, and a string that is printed has every reference replaced once -/
def Substituted (s : List Char) : Prop :=
  EndsWith (substituteTurn programData location) s (Replaced ((reading s).expanded programData))

variable {programData location} {s s' : List Char} {Q : Except Failure (List Char) → Prop}

theorem substituteTurn_next_iff :
    substituteTurn programData location s = .ok (.inl s') ↔ printTurn programData location s = .ok (.inl s') := by
  rw [substituteTurn]
  cases printTurn programData location s with
  | error e => simp [Except.map]
  | ok next => cases next <;> simp [Except.map]

theorem substituteTurn_error_iff {e : Failure} :
    substituteTurn programData location s = .error e ↔ printTurn programData location s = .error e := by
  rw [substituteTurn]
  cases printTurn programData location s with
  | error e => simp [Except.map]
  | ok next => simp [Except.map]

/-- what is printed is the string that the last turn is at -/
theorem substituteTurn_last {out : List Char} (h : substituteTurn programData location s = .ok (.inr out)) :
    out = s := by
  rw [substituteTurn] at h
  cases hturn : printTurn programData location s with
  | error e =>
    rw [hturn] at h
    cases h
  | ok next =>
    rw [hturn] at h
    cases next with
    | inl s' => cases h
    | inr u => exact (Sum.inr.inj (Except.ok.inj h)).symm

theorem substitute_next (h : printTurn programData location s = .ok (.inl s')) :
    EndsWith (substituteTurn programData location) s Q ↔ EndsWith (substituteTurn programData location) s' Q :=
  Core.endsWith_next (by rw [substituteTurn, h]; rfl)

theorem substitute_last (h : printTurn programData location s = .ok (.inr ())) :
    EndsWith (substituteTurn programData location) s Q ↔ Q (.ok s) :=
  Core.endsWith_last (by rw [substituteTurn, h]; rfl)

theorem substitute_error {e : Failure} (h : printTurn programData location s = .error e) :
    EndsWith (substituteTurn programData location) s Q ↔ Q (.error e) :=
  Core.endsWith_error (by rw [substituteTurn, h]; rfl)

/-- a turn at a name in braces -/
theorem substitute_braced {a name b : List Char} (hpair : ¬ ['$', '{'] <:+: a) (hclose : '}' ∉ a) (hname : '}' ∉ name) :
    EndsWith (substituteTurn programData location) (a ++ '$' :: '{' :: (name ++ '}' :: b)) Q ↔
      EndsWith (substituteTurn programData location) (a ++ bracedValue programData name ++ b) Q := by
  have hcut : cut ['$', '{'] (a ++ '$' :: '{' :: (name ++ '}' :: b)) = some (a, name ++ '}' :: b) :=
    Core.cut_pair (by decide) hpair
  exact substitute_next (printTurn_braced programData location hcut hclose hname)

/-- a turn at a name without braces -/
theorem substitute_value {name : List Char} {f : List Char → List Char} {out : String}
    (h : printTurn programData location s = (bareValue programData location name).map fun val => .inl (f val))
    (hname : programData (String.ofList name) = some out) :
    EndsWith (substituteTurn programData location) s Q ↔
      EndsWith (substituteTurn programData location) (f out.toList) Q := by
  refine substitute_next (h.trans ?_)
  rw [bareValue, hname]
  rfl

theorem substitute_noValue {name : List Char} {f : List Char → List Char}
    (h : printTurn programData location s = (bareValue programData location name).map fun val => .inl (f val))
    (hname : programData (String.ofList name) = none) :
    EndsWith (substituteTurn programData location) s Q ↔ Q (.error (noValue location name)) := by
  refine substitute_error (h.trans ?_)
  rw [bareValue, hname]
  rfl

/-- then `run_print` ends without a panic -/
theorem runPrint_of_substituted {directive : DirectivePrototype} {printString : String} {rest : List String}
    (hargs : directive.arguments = some (printString :: rest))
    (h : Substituted programData location printString.toList) :
    ∃ turns r, runPrint programData turns directive location = some r ∧ r ≠ .error .panic := by
  obtain ⟨turns, r, hloop, hpanic, _⟩ := h
  have hrun : runPrint programData turns directive location =
      Core.loop (printTurn programData location) turns printString.toList := by
    rw [runPrint, hargs]
  refine ⟨turns, r.map fun _ => (), ?_, ?_⟩
  · rw [hrun, substitute_runPrint, hloop]
    rfl
  · intro hr
    cases r with
    | error e => exact hpanic (congrArg Except.error (Except.error.inj hr))
    | ok out => cases hr

/-! ## Legible strings -/

/-- the turns at the names in braces -/
theorem endsWith_braces_iff {p : Reading} (hp : p.Canonical) {out : List Char} (h : p.BracesLegible programData out) :
    EndsWith (substituteTurn programData location) (out ++ p.rendered) Q ↔
      EndsWith (substituteTurn programData location) (out ++ p.braces programData) Q := by
  induction p generalizing out with
  | done text | unclosed text tail => exact Iff.rfl
  | braced text name rest ih =>
    obtain ⟨hclose, hpair, hrest⟩ := h
    rw [Reading.append_rendered_braced, Reading.append_braces_braced, substitute_braced hpair hclose hp.2.1]
    exact ih hp.2.2 hrest
  | bare text name rest ih =>
    have hend : out ++ (Reading.bare text name rest).braces programData =
        out ++ text ++ '$' :: name ++ rest.braces programData := by simp [Reading.braces]
    rw [Reading.append_rendered_bare, hend]
    exact ih hp.2.2.2 h

/-- the turns at the names without braces -/
theorem endsWith_names {p : Reading} (hp : p.Canonical) {out : List Char} (h : p.NamesLegible programData out) :
    EndsWith (substituteTurn programData location) (out ++ p.braces programData)
      (Replaced ((p.expanded programData).map (out ++ ·))) := by
  induction p generalizing out with
  | done text =>
    have hend : printTurn programData location (out ++ text) = .ok (.inr ()) := by
      rcases h with h | ⟨hpair, hclose⟩
      · exact printTurn_plain programData location h
      · exact printTurn_open programData location hpair hclose
    rw [Reading.braces, substitute_last hend]
    exact ⟨by rintro ⟨⟩, fun _ h => congrArg some (Except.ok.inj h)⟩
  | unclosed text tail =>
    have hclose : '}' ∉ out ++ (text ++ '$' :: '{' :: tail) := by
      have hout : '}' ∉ out ++ text := h
      simpa [hp.2] using hout
    have hpair : ['$', '{'] <:+: out ++ (text ++ '$' :: '{' :: tail) := ⟨out ++ text, tail, by simp⟩
    rw [Reading.braces, substitute_last (printTurn_open programData location hpair hclose)]
    exact ⟨by rintro ⟨⟩, fun _ h => congrArg some (Except.ok.inj h)⟩
  | braced text name rest ih =>
    have hexpected : ((Reading.braced text name rest).expanded programData).map (out ++ ·) =
        (rest.expanded programData).map (out ++ text ++ bracedValue programData name ++ ·) := by
      rw [Reading.expanded, Option.map_map]
      simp [Function.comp_def]
    rw [Reading.append_braces_braced, hexpected]
    exact ih hp.2.2 h
  | bare text name rest ih =>
    obtain ⟨hpair, hdollar, hplace, hrest⟩ := h
    obtain ⟨_, ⟨hblank, _⟩, _, hcanonical⟩ := hp
    -- wherever the name stands, it is the one that is read
    have hturn : printTurn programData location (out ++ text ++ '$' :: (name ++ rest.braces programData)) =
        (bareValue programData location name).map fun val => .inl (out ++ text ++ val ++ rest.braces programData) := by
      rcases hplace with hend | ⟨hstart, hhead⟩
      · rw [hend, List.append_nil] at hpair ⊢
        simpa using printTurn_last programData location hpair hdollar hblank
      · obtain ⟨more, hmore⟩ := List.head?_eq_some_iff.mp hhead
        rw [hmore] at hpair ⊢
        have hname : ' ' ∉ name ++ [] := by simpa using hblank
        have hlen : utf8Length [] = utf8Length (out ++ text) := by rw [hstart]
        simpa using printTurn_read programData location (by simpa using hpair) hdollar hname hlen
    rw [Reading.append_braces_bare]
    cases hname : programData (String.ofList name) with
    | none =>
      rw [substitute_noValue hturn hname]
      exact ⟨by rintro ⟨⟩, fun _ h => by cases h⟩
    | some val =>
      have hexpected : ((Reading.bare text name rest).expanded programData).map (out ++ ·) =
          (rest.expanded programData).map (out ++ text ++ val.toList ++ ·) := by
        rw [Reading.expanded, hname, Option.bind_some, Option.map_map]
        simp [Function.comp_def]
      rw [substitute_value hturn hname, hexpected]
      exact ih hcanonical (hrest val hname)

/-- **Replacement.** Where no turn meets anything but the references of the string, every one is replaced once. -/
theorem substituted_of_legible (h : (reading s).Legible programData) : Substituted programData location s := by
  have hnames := @endsWith_names programData location _ (canonical_reading s) [] h.names
  have hbraces := (@endsWith_braces_iff programData location _ _ (canonical_reading s) [] h.braces).mpr hnames
  rw [List.nil_append, rendered_reading] at hbraces
  simpa [Substituted] using hbraces

end

end BigWorlds.Machine
