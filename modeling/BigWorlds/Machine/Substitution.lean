/-
When `!print` replaces every reference of a string once (`machine/script/preprocessor.rs`, the loop of `run_print`).

Every turn looks for a reference from the start of the string on, so what a value brings in is looked at again; a brace
that closes is looked for from the start too; and a name without braces is only read right at the end of the string, or
at its start and in front of a blank.

- `legible_of_printable`: a printable string is legible with all plain values;
- `printable_of_substituted`: the only strings that are printed right with all plain values are printable;
- `plainValue_of_substituted`: the only values that all printable strings are printed right with are plain;
- `substituted_iff`: together.

Witness: `print_panics`: a name in the middle of a string, and a value that is its own reference.
-/
import BigWorlds.Machine.Replacing
import Mathlib.Data.Set.Finite.Basic
import Mathlib.Data.Set.Finite.List

namespace BigWorlds.Machine

open BigWorlds.Core (utf8Length cut EndsWith)

/-! ## Plain values -/

section
variable {programData : String → Option String} {location : LocationInfo}

theorem plain_bracedValue (h : PlainTable programData) (name : List Char) :
    PlainValue (bracedValue programData name) := by
  unfold bracedValue
  cases hname : programData (String.ofList name) with
  | none => exact ⟨by decide, by decide⟩
  | some val => exact h _ val hname

/-- what is put in front of a text that does not start with a brace brings no name in braces -/
theorem not_pair_append {a b : List Char} (ha : ¬ ['$', '{'] <:+: a) (hb : '$' ∉ b)
    (hacross : a.getLast? ≠ some '$' ∨ b.head? ≠ some '{') : ¬ ['$', '{'] <:+: a ++ b := by
  rw [Core.pair_append_iff]
  rintro (h | h | ⟨hlast, hhead⟩)
  · exact ha h
  · exact hb (h.subset List.mem_cons_self)
  · exact hacross.elim (fun h => h hlast) (fun h => h hhead)

theorem not_pair_of_dollar {a : List Char} (h : '$' ∉ a) : ¬ ['$', '{'] <:+: a :=
  fun hpair => h (hpair.subset List.mem_cons_self)

theorem not_pair_of_front {a b : List Char} (ha : '$' ∉ a) (hb : ¬ ['$', '{'] <:+: b) : ¬ ['$', '{'] <:+: a ++ b := by
  rw [Core.pair_append_iff]
  rintro (h | h | ⟨h, _⟩)
  · exact not_pair_of_dollar ha h
  · exact hb h
  · exact ha (List.mem_of_getLast? h)

/-- a dollar sign does not end a name in braces that is opened in front of it -/
theorem not_pair_dollar {a b : List Char} (ha : ¬ ['$', '{'] <:+: a) (hb : ¬ ['$', '{'] <:+: '$' :: b) :
    ¬ ['$', '{'] <:+: a ++ '$' :: b := by
  rw [Core.pair_append_iff]
  rintro (h | h | ⟨_, h⟩)
  · exact ha h
  · exact hb h
  · cases h

theorem getLast_append_ne {a b : List Char} (ha : a.getLast? ≠ some '$') (hb : '$' ∉ b) :
    (a ++ b).getLast? ≠ some '$' := by
  intro h
  cases b with
  | nil => exact ha (by simpa using h)
  | cons c b =>
    rw [List.getLast?_append_of_ne_nil _ (List.cons_ne_nil c b)] at h
    exact hb (List.mem_of_getLast? h)

namespace Reading

variable {p : Reading} {out : List Char} {start : Bool}

/-- in a printable string with plain values, the names in braces are found in their order -/
theorem bracesLegible_of_printable (hplain : PlainTable programData) (hp : p.Canonical) (horder : p.InOrder)
    (hends : p.AtEnds start) (hclose : p.opens = true → '}' ∉ out) (hpair : ¬ ['$', '{'] <:+: out ++ p.front)
    (hlast : p.opens = true → (out ++ p.front).getLast? ≠ some '$') : p.BracesLegible programData out := by
  induction p generalizing out start with
  | done text | unclosed text tail => trivial
  | braced text name rest ih =>
    have hval := plain_bracedValue hplain name
    have hfree : '$' ∉ bracedValue programData name ++ rest.front := by
      simp [hval.dollar, hp.2.2.front_plain]
    have htext : '}' ∉ out ++ text := by simp [hclose rfl, horder.1]
    refine ⟨htext, hpair, ih hp.2.2 horder.2 hends ?_ ?_ ?_⟩
    · intro _
      rw [List.mem_append, not_or]
      exact ⟨htext, hval.close⟩
    · rw [List.append_assoc]
      exact not_pair_append hpair hfree (Or.inl (hlast rfl))
    · intro _
      rw [List.append_assoc]
      exact getLast_append_ne (hlast rfl) hfree
  | bare text name rest ih =>
    obtain ⟨_, ⟨_, hname⟩, hfollows, hrest⟩ := hp
    obtain ⟨_, hplace, hends⟩ := hends
    rcases hplace with rfl | ⟨_, _, hfront⟩
    · trivial
    · have hblank : rest.front.head? = some ' ' := hfollows.front.resolve_left hfront
      have hhead : ¬ ['$', '{'] <:+: '$' :: name ++ rest.front :=
        not_pair_append hname hrest.front_plain (Or.inr (by rw [hblank]; decide))
      refine ih hrest horder.2 hends ?_ ?_ ?_
      · intro hopens
        obtain ⟨htext, hname⟩ := horder.1 hopens
        have hout := hclose hopens
        simp [hout, htext, hname]
      · rw [List.append_assoc]
        exact not_pair_dollar hpair hhead
      · intro _ h
        rw [List.getLast?_append_of_ne_nil _ hfront] at h
        exact hrest.front_plain (List.mem_of_getLast? h)

theorem braces_front (hfront : p.front ≠ []) : (p.braces programData).head? = p.front.head? := by
  obtain ⟨c, text, hc⟩ := List.exists_cons_of_ne_nil hfront
  cases p with
  | done text | unclosed text tail | braced text name rest | bare text name rest =>
    obtain rfl : text = _ := hc
    rfl

theorem not_pair_braced {text name : List Char} {rest : Reading} (htext : '$' ∉ text)
    (hvalue : '$' ∉ bracedValue programData name) (hrest : ¬ ['$', '{'] <:+: rest.braces programData) :
    ¬ ['$', '{'] <:+: (braced text name rest).braces programData := by
  have hfree : '$' ∉ text ++ bracedValue programData name := by simp [htext, hvalue]
  exact not_pair_of_front hfree hrest

theorem not_pair_bare {text name : List Char} {rest : Reading} (hp : (bare text name rest).Canonical)
    (hrest : ¬ ['$', '{'] <:+: rest.braces programData) (hhead : (rest.braces programData).head? ≠ some '{') :
    ¬ ['$', '{'] <:+: (bare text name rest).braces programData := by
  have hname : ¬ ['$', '{'] <:+: '$' :: name ++ rest.braces programData := by
    rw [Core.pair_append_iff]
    rintro (h | h | ⟨_, h⟩)
    · exact hp.2.1.2 h
    · exact hrest h
    · exact hhead h
  exact not_pair_dollar (not_pair_of_dollar hp.1) hname

/-- what follows a name without braces in a printable string -/
theorem braces_of_place {rest : Reading} (hfollows : rest.Follows) (h : rest = done [] ∨ rest.front ≠ []) :
    rest.braces programData = [] ∨ (rest.braces programData).head? = some ' ' := by
  rcases h with rfl | h
  · exact Or.inl rfl
  · rw [braces_front h]
    exact Or.inr (hfollows.front.resolve_left h)

/-- in a printable string with plain values, no name in braces is left -/
theorem not_pair_of_atEnds (hplain : PlainTable programData) (hp : p.Canonical) (hends : p.AtEnds start)
    (hunclosed : p.isUnclosed = false) : ¬ ['$', '{'] <:+: p.braces programData := by
  induction p generalizing start with
  | done text => exact not_pair_of_dollar hp
  | unclosed text tail => cases hunclosed
  | braced text name rest ih =>
    exact not_pair_braced hp.1 (plain_bracedValue hplain name).dollar (ih hp.2.2 hends hunclosed)
  | bare text name rest ih =>
    refine not_pair_bare hp (ih hp.2.2.2 hends.2.2 hunclosed) ?_
    have hplace := @braces_of_place programData rest hp.2.2.1 (hends.2.1.imp_right fun h => h.2.2)
    rcases hplace with h | h <;> simp [h]

/-- in a printable string with plain values, the names without braces are read right -/
theorem namesLegible_of_printable (hplain : PlainTable programData) (hp : p.Canonical) (horder : p.InOrder)
    (hends : p.AtEnds start) (hstart : start = true → out = []) (hdollar : '$' ∉ out)
    (hclose : p.isUnclosed = true → '}' ∉ out) : p.NamesLegible programData out := by
  induction p generalizing out start with
  | done text => exact Or.inl (by simp [hdollar, show '$' ∉ text from hp])
  | unclosed text tail =>
    have htext : '}' ∉ text := horder
    simp [NamesLegible, hclose rfl, htext]
  | braced text name rest ih =>
    have hval := plain_bracedValue hplain name
    refine ih hp.2.2 horder.2 hends (by rintro ⟨⟩) (by simp [hdollar, hp.1, hval.dollar]) ?_
    intro hunclosed
    simp [hclose hunclosed, horder.1, hval.close]
  | bare text name rest ih =>
    obtain ⟨hunclosed, hplace, hrest⟩ := hends
    have hfree : '$' ∉ out ++ text := by simp [hdollar, hp.1]
    have hpair := not_pair_of_atEnds hplain hp ⟨hunclosed, hplace, hrest⟩ hunclosed
    refine ⟨?_, hfree, ?_, ?_⟩
    · rw [← append_braces_bare]
      exact not_pair_of_front hdollar hpair
    · rcases hplace with rfl | ⟨hfirst, htext, hfront⟩
      · exact Or.inl rfl
      · refine Or.inr ⟨by rw [hstart hfirst, htext]; rfl, ?_⟩
        rw [braces_front hfront]
        exact hp.2.2.1.front.resolve_left hfront
    · intro val hval
      refine ih hp.2.2.2 horder.2 hrest (by rintro ⟨⟩) ?_ ?_
      · rw [List.mem_append, not_or]
        exact ⟨hfree, (hplain _ val hval).dollar⟩
      · intro h
        exact absurd (hunclosed.symm.trans h) (by decide)

/-- **Printable strings.** With plain values, no turn meets anything but their references. -/
theorem legible_of_printable (hplain : PlainTable programData) (hp : p.Canonical) (h : p.Printable) :
    p.Legible programData := by
  have hempty : '}' ∉ ([] : List Char) ∧ '$' ∉ ([] : List Char) := ⟨List.not_mem_nil, List.not_mem_nil⟩
  constructor
  · refine bracesLegible_of_printable hplain hp h.inOrder h.atEnds (fun _ => hempty.1) ?_ ?_
    · exact not_pair_of_dollar hp.front_plain
    · intro _ hlast
      exact hp.front_plain (List.mem_of_getLast? hlast)
  · exact namesLegible_of_printable hplain hp h.inOrder h.atEnds (fun _ => rfl) hempty.2 fun _ => hempty.1

end Reading

/-! ## Runs with plain tables -/

variable {s a b : List Char} {Q : Except Failure (List Char) → Prop}

/-- a turn with a plain table takes a dollar sign out -/
theorem printTurn_count (hplain : PlainTable programData) {s' : List Char}
    (h : printTurn programData location s = .ok (.inl s')) : s'.count '$' < s.count '$' := by
  obtain ⟨front, gone, val, rest, rfl, rfl, _, hval⟩ := printTurn_next programData location h
  have hfree : val.count '$' = 0 := by
    rw [List.count_eq_zero]
    rcases hval with rfl | ⟨name, out, hname, rfl⟩
    · decide
    · exact (hplain name out hname).dollar
  simp only [List.count_append, List.count_cons, hfree, beq_self_eq_true, if_true]
  omega

theorem substitute_ends (hplain : PlainTable programData) (location : LocationInfo) (s : List Char) :
    ∃ turns r, Core.loop (substituteTurn programData location) turns s = some r := by
  refine ⟨s.count '$' + 1, Core.loop_ends (fun s s' hturn => ?_) (Nat.lt_succ_self _)⟩
  exact printTurn_count hplain (substituteTurn_next_iff.1 hturn)

/-- what is expected looks at finitely many entries of the table -/
theorem expanded_congr (p : Reading) : ∃ names : List String, ∀ programData programData' : String → Option String,
    (∀ name ∈ names, programData' name = programData name) →
      p.expanded programData' = p.expanded programData := by
  induction p with
  | done text | unclosed text tail => exact ⟨[], fun _ _ _ => rfl⟩
  | braced text name rest ih | bare text name rest ih =>
    obtain ⟨names, hnames⟩ := ih
    refine ⟨String.ofList name :: names, ?_⟩
    intro programData programData' hsame
    have hname := hsame _ List.mem_cons_self
    have hrest := hnames programData programData' fun name hmem => hsame name (List.mem_cons_of_mem _ hmem)
    simp only [Reading.expanded, bracedValue, hname, hrest]

/-- a table that is plain stands for the finite ones that are a part of it -/
theorem substituted_of_finite (hplain : PlainTable programData)
    (h : ∀ programData', {name | (programData' name).isSome}.Finite → PlainTable programData' →
      Substituted programData' location s) : Substituted programData location s := by
  have hlook : ∀ s, ∃ name, ∀ table table' : String → Option String, table' name = table name →
      substituteTurn table' location s = substituteTurn table location s := by
    intro s
    obtain ⟨name, hname⟩ := printTurn_congr location s
    exact ⟨name, fun table table' hsame => by rw [substituteTurn, substituteTurn, hname table table' hsame]⟩
  obtain ⟨turns, r, hloop⟩ := substitute_ends hplain location s
  obtain ⟨names, hnames⟩ := Core.loop_congr_table hlook programData turns s
  obtain ⟨names', hnames'⟩ := expanded_congr (reading s)
  let part : String → Option String := fun name => if name ∈ names ++ names' then programData name else none
  have hpart : ∀ name ∈ names ++ names', part name = programData name := fun name hmem => if_pos hmem
  have hfinite : {name | (part name).isSome}.Finite := by
    refine (List.finite_toSet (names ++ names')).subset ?_
    intro name hsome
    by_contra hmem
    have hnone : part name = none := if_neg hmem
    simp [hnone] at hsome
  have hplain' : PlainTable part := by
    intro name val hval
    by_cases hmem : name ∈ names ++ names'
    · exact hplain name val ((hpart name hmem).symm.trans hval)
    · have hnone : part name = none := if_neg hmem
      rw [hnone] at hval
      cases hval
  have hsame := hnames part fun name hmem => hpart name (List.mem_append_left _ hmem)
  have hexpected := hnames' programData part fun name hmem => hpart name (List.mem_append_right _ hmem)
  have hright := h part hfinite hplain'
  rw [Substituted, Core.endsWith_of_loop (hsame.trans hloop), hexpected] at hright
  exact (Core.endsWith_of_loop hloop).mpr hright

/-- what stands in front of the first reference stays, and a table with all values lets nothing else fail -/
theorem endsWith_front (hplain : PlainTable programData) (htable : ∀ name, programData name ≠ none) (ha : '$' ∉ a)
    (hpair : ¬ ['$', '{'] <:+: a ++ b) {expected : Option (List Char)}
    (h : EndsWith (substituteTurn programData location) (a ++ b) (Replaced expected)) :
    ∃ out, expected = some (a ++ out) := by
  have hkeeps : ∀ s s', (a <+: s ∧ ¬ ['$', '{'] <:+: s) → substituteTurn programData location s = .ok (.inl s') →
      a <+: s' ∧ ¬ ['$', '{'] <:+: s' := by
    rintro s s' ⟨hs, hpair⟩ hturn
    obtain ⟨front, gone, val, rest, rfl, rfl, hfront, hval⟩ :=
      printTurn_next programData location (substituteTurn_next_iff.1 hturn)
    have hdollar := hfront.resolve_left hpair
    have hfree : '$' ∉ front ++ val := by
      rw [List.mem_append, not_or]
      refine ⟨hdollar, ?_⟩
      rcases hval with rfl | ⟨name, out, hname, rfl⟩
      · decide
      · exact (hplain name out hname).dollar
    have hstart : a <+: front := by
      rcases List.prefix_or_prefix_of_prefix hs (List.prefix_append front _) with h | ⟨more, rfl⟩
      · exact h
      · cases more with
        | nil => simp
        | cons c more =>
          obtain ⟨rfl, _⟩ := List.cons_prefix_cons.mp ((List.prefix_append_right_inj front).mp hs)
          exact absurd (List.mem_append_right front List.mem_cons_self) ha
    refine ⟨(hstart.trans (List.prefix_append front val)).trans (List.prefix_append _ rest), ?_⟩
    refine not_pair_of_front hfree fun h => hpair (h.trans ⟨front ++ '$' :: gone, [], by simp⟩)
  obtain ⟨turns, r, _, hr, last, ⟨hfront, _⟩, hturn⟩ := h.keeps hkeeps ⟨⟨b, rfl⟩, hpair⟩
  cases r with
  | error e =>
    obtain rfl := printTurn_fails programData location (substituteTurn_error_iff.1 hturn) htable
    exact absurd rfl hr.1
  | ok out =>
    obtain rfl := substituteTurn_last hturn
    obtain ⟨rest, hrest⟩ := hfront
    exact ⟨rest, by rw [hr.2 _ rfl, hrest]⟩

/-! ## What the order of braces is needed for -/

/-- a value that neither starts nor ends a reference, whatever stands next to it -/
structure InertValue (val : List Char) : Prop extends PlainValue val where
  brace : '{' ∉ val
  nonempty : val ≠ []

theorem InertValue.head {val : List Char} (h : InertValue val) (text : List Char) :
    (val ++ text).head? ≠ some '{' := by
  obtain ⟨c, val', rfl⟩ := List.exists_cons_of_ne_nil h.nonempty
  intro hhead
  obtain rfl : c = '{' := Option.some.inj hhead
  exact h.brace List.mem_cons_self

/-- a brace that closes in front of one that opens is a panic -/
theorem close_of_endsWith (hpair : ¬ ['$', '{'] <:+: a) (hQ : ¬ Q (.error .panic))
    (h : EndsWith (substituteTurn programData location) (a ++ '$' :: '{' :: b) Q) : '}' ∉ a := by
  intro hclose
  have hcut : cut ['$', '{'] (a ++ '$' :: '{' :: b) = some (a, b) := Core.cut_pair (by decide) hpair
  rw [substitute_error (printTurn_closed programData location hcut hclose)] at h
  exact hQ h

namespace Reading

variable {p : Reading} {out : List Char}

/-- where the names in braces are replaced without a panic, they are in order -/
theorem inOrder_of_endsWith (hinert : ∀ name, InertValue (bracedValue programData name)) (hp : p.Canonical)
    (hpair : ¬ ['$', '{'] <:+: out ++ p.front) (hQ : ¬ Q (.error .panic))
    (h : EndsWith (substituteTurn programData location) (out ++ p.rendered) Q) :
    ((p.opens = true → '}' ∉ out) ∧ p.InOrder) ∧
      EndsWith (substituteTurn programData location) (out ++ p.braces programData) Q := by
  induction p generalizing out with
  | done text => exact ⟨⟨by rintro ⟨⟩, trivial⟩, h⟩
  | unclosed text tail =>
    have hstate : out ++ (unclosed text tail).rendered = out ++ text ++ '$' :: '{' :: tail := by simp [rendered]
    have htext := close_of_endsWith hpair hQ (hstate ▸ h)
    obtain ⟨hout, htext⟩ := not_or.mp (List.mem_append.not.mp htext)
    exact ⟨⟨fun _ => hout, htext⟩, h⟩
  | braced text name rest ih =>
    have hval := hinert name
    have hpair : ¬ ['$', '{'] <:+: out ++ text := hpair
    rw [append_rendered_braced] at h
    have htext := close_of_endsWith hpair hQ h
    rw [substitute_braced hpair htext hp.2.1] at h
    have hpair' : ¬ ['$', '{'] <:+: out ++ text ++ bracedValue programData name ++ rest.front := by
      rw [List.append_assoc]
      exact not_pair_append hpair (by simp [hval.dollar, hp.2.2.front_plain]) (Or.inr (hval.head _))
    obtain ⟨⟨_, hrest⟩, hbraces⟩ := ih hp.2.2 hpair' h
    obtain ⟨hout, htext⟩ := not_or.mp (List.mem_append.not.mp htext)
    rw [append_braces_braced]
    exact ⟨⟨fun _ => hout, htext, hrest⟩, hbraces⟩
  | bare text name rest ih =>
    obtain ⟨_, ⟨_, hname⟩, hfollows, hcanonical⟩ := hp
    rw [append_rendered_bare] at h
    have hpair' : ¬ ['$', '{'] <:+: out ++ text ++ '$' :: name ++ rest.front := by
      refine not_pair_append (not_pair_dollar hpair hname) hcanonical.front_plain (Or.inr ?_)
      rcases hfollows.front with hfront | hfront <;> simp [hfront]
    obtain ⟨⟨hclose, hrest⟩, hbraces⟩ := ih hcanonical hpair' h
    refine ⟨⟨?_, ?_, hrest⟩, by simpa [braces] using hbraces⟩
    · intro hopens hmem
      exact hclose hopens (by simp [hmem])
    · intro hopens
      have hfree := hclose hopens
      simp only [List.mem_append, List.mem_cons, not_or] at hfree
      exact ⟨hfree.1.2, hfree.2.2⟩

/-! ## A brace that is not closed -/

theorem opens_of_unclosed (h : p.isUnclosed = true) : p.opens = true := by
  induction p with
  | done text => cases h
  | unclosed text tail | braced text name rest => rfl
  | bare text name rest ih => exact ih h

/-- the loop ends at a brace that is not closed -/
theorem printTurn_unclosed (hvalue : ∀ name, '}' ∉ bracedValue programData name) (hp : p.Canonical)
    (horder : p.InOrder) (h : p.isUnclosed = true) :
    printTurn programData location (p.braces programData) = .ok (.inr ()) := by
  have hbraces : ['$', '{'] <:+: p.braces programData ∧ '}' ∉ p.braces programData := by
    induction p with
    | done text => cases h
    | unclosed text tail =>
      have htext : '}' ∉ text := horder
      exact ⟨⟨text, tail, by simp [braces]⟩, by simp [braces, htext, hp.2]⟩
    | braced text name rest ih =>
      obtain ⟨hpair, hclose⟩ := ih hp.2.2 horder.2 h
      refine ⟨hpair.trans (List.suffix_append _ _).isInfix, ?_⟩
      simp [braces, horder.1, hvalue name, hclose]
    | bare text name rest ih =>
      obtain ⟨hpair, hclose⟩ := ih hp.2.2.2 horder.2 h
      obtain ⟨htext, hname⟩ := horder.1 (opens_of_unclosed h)
      refine ⟨hpair.trans ⟨text ++ '$' :: name, [], by simp [braces]⟩, ?_⟩
      simp [braces, htext, hname, hclose]
  exact printTurn_open programData location hbraces.1 hbraces.2

/-- without values, a string without names is expected, or nothing -/
theorem atEnds_of_expanded {out : List Char} (h : p.expanded noData = some out) (start : Bool) : p.AtEnds start := by
  induction p generalizing out start with
  | done text | unclosed text tail => trivial
  | braced text name rest ih =>
    obtain ⟨out', hout, _⟩ := Option.map_eq_some_iff.mp h
    exact ih hout false
  | bare text name rest ih => cases h

end Reading

/-! ## What the places of names are needed for -/

/-- the table with one value for every name -/
def constant (val : String) : String → Option String := fun _ => some val

section
variable {val : String} {p : Reading} {out : List Char}

theorem bracedValue_constant (name : List Char) : bracedValue (constant val) name = val.toList := rfl

theorem constant_plain (hval : InertValue val.toList) : PlainTable (constant val) := by
  rintro name _ ⟨⟩
  exact hval.toPlainValue

/-- a name that a blank follows is read with as many bytes left out as stand in front of it -/
theorem split_of_endsWith {front name more : List Char}
    (hpair : ¬ ['$', '{'] <:+: front ++ '$' :: (name ++ ' ' :: more)) (hfront : '$' ∉ front) (hname : ' ' ∉ name)
    (hQ : ¬ Q (.error .panic))
    (h : EndsWith (substituteTurn (constant val) location) (front ++ '$' :: (name ++ ' ' :: more)) Q) :
    ∃ read left, name = read ++ left ∧ utf8Length left = utf8Length front ∧
      EndsWith (substituteTurn (constant val) location) (front ++ val.toList ++ (left ++ ' ' :: more)) Q := by
  by_cases hread : ∃ read left, name = read ++ left ∧ utf8Length left = utf8Length front
  · obtain ⟨read, left, rfl, hlen⟩ := hread
    have hturn := printTurn_read (constant val) location hpair hfront hname hlen
    exact ⟨read, left, rfl, hlen, (substitute_value hturn rfl).mp h⟩
  · have hturn := printTurn_unread (constant val) location hpair hfront hname fun read left hname hlen =>
      hread ⟨read, left, hname, hlen⟩
    exact absurd ((substitute_error hturn).mp h) hQ

namespace Reading

theorem front_ne_nil {c : Char} (h : p.front.head? = some c) : p.front ≠ [] := by
  intro hnil
  rw [hnil] at h
  cases h

/-- what follows a name without braces, if no brace is left open -/
theorem Follows.cases (h : p.Follows) (hunclosed : p.isUnclosed = false) :
    p = done [] ∨ p.front.head? = some ' ' ∨ ∃ name rest, p = braced [] name rest := by
  cases p with
  | done text =>
    rcases h with rfl | h
    · exact Or.inl rfl
    · exact Or.inr (Or.inl h)
  | unclosed text tail => cases hunclosed
  | braced text name rest =>
    rcases h with rfl | h
    · exact Or.inr (Or.inr ⟨name, rest, rfl⟩)
    · exact Or.inr (Or.inl h)
  | bare text name rest => exact Or.inr (Or.inl h)

theorem not_pair_constant (hval : InertValue val.toList) (hp : p.Canonical) (hunclosed : p.isUnclosed = false) :
    ¬ ['$', '{'] <:+: p.braces (constant val) := by
  induction p with
  | done text => exact not_pair_of_dollar hp
  | unclosed text tail => cases hunclosed
  | braced text name rest ih => exact not_pair_braced hp.1 hval.dollar (ih hp.2.2 hunclosed)
  | bare text name rest ih =>
    refine not_pair_bare hp (ih hp.2.2.2 hunclosed) ?_
    rcases hp.2.2.1.cases hunclosed with rfl | h | ⟨name, rest, rfl⟩
    · simp [braces]
    · rw [braces_front (front_ne_nil h), h]
      decide
    · exact hval.head (rest.braces (constant val))

/-- with a value that starts with a blank, a name is followed by one or ends the string -/
theorem braces_blank (hblank : val.toList.head? = some ' ') (hfollows : p.Follows) (hunclosed : p.isUnclosed = false) :
    p = done [] ∨ ∃ more, p.braces (constant val) = ' ' :: more := by
  rcases hfollows.cases hunclosed with h | h | ⟨name, rest, rfl⟩
  · exact Or.inl h
  · exact Or.inr (List.head?_eq_some_iff.mp ((braces_front (front_ne_nil h)).trans h))
  · obtain ⟨more, hmore⟩ := List.head?_eq_some_iff.mp hblank
    exact Or.inr ⟨more ++ rest.braces (constant val), by simp [braces, bracedValue, constant, hmore]⟩

/-- behind a long text, a name without braces has to stand at the end -/
theorem atEnds_of_long (hval : InertValue val.toList) (hblank : val.toList.head? = some ' ') (hp : p.Canonical)
    (hunclosed : p.isUnclosed = false) (hdollar : '$' ∉ out) (hlong : utf8Length p.rendered < utf8Length out)
    (hQ : ¬ Q (.error .panic))
    (h : EndsWith (substituteTurn (constant val) location) (out ++ p.braces (constant val)) Q) : p.AtEnds false := by
  induction p generalizing out with
  | done text | unclosed text tail => trivial
  | braced text name rest ih =>
    rw [append_braces_braced] at h
    refine ih hp.2.2 hunclosed (by simp [bracedValue_constant, hdollar, hp.1, hval.dollar]) ?_ h
    simp only [rendered, Core.utf8Length_append, Core.utf8Length_cons] at hlong ⊢
    omega
  | bare text name rest ih =>
    refine ⟨hunclosed, ?_⟩
    rcases braces_blank hblank hp.2.2.1 hunclosed with rfl | ⟨more, hmore⟩
    · exact ⟨Or.inl rfl, trivial⟩
    · have hpair := not_pair_constant hval hp hunclosed
      have hpair' := not_pair_of_front hdollar hpair
      rw [append_braces_bare, hmore] at hpair' h
      obtain ⟨read, left, rfl, hlen, _⟩ :=
        split_of_endsWith hpair' (by simp [hdollar, hp.1]) hp.2.1.1 hQ h
      simp only [rendered, Core.utf8Length_append, Core.utf8Length_cons] at hlong hlen
      omega

/-- what is expected there starts with a blank too -/
theorem expanded_blank {expected : List Char} (hblank : val.toList.head? = some ' ') (hfollows : p.Follows)
    (hunclosed : p.isUnclosed = false) (h : p.expanded (constant val) = some expected) :
    p = done [] ∨ expected.head? = some ' ' := by
  rcases hfollows.cases hunclosed with hp | hfront | ⟨name, rest, rfl⟩
  · exact Or.inl hp
  · obtain ⟨text, htext⟩ := List.head?_eq_some_iff.mp hfront
    right
    cases p with
    | done text' =>
      obtain rfl : text' = _ := htext
      rw [← Option.some.inj h]
      rfl
    | unclosed text' tail => cases hunclosed
    | braced text' name rest =>
      obtain rfl : text' = _ := htext
      obtain ⟨out', _, rfl⟩ := Option.map_eq_some_iff.mp h
      rfl
    | bare text' name rest =>
      obtain rfl : text' = _ := htext
      obtain ⟨out', _, rfl⟩ := Option.map_eq_some_iff.mp h
      rfl
  · obtain ⟨more, hmore⟩ := List.head?_eq_some_iff.mp hblank
    obtain ⟨out', _, rfl⟩ := Option.map_eq_some_iff.mp h
    exact Or.inr (by simp [bracedValue, constant, hmore])

variable {text name : List Char} {rest : Reading}

/-- a name without braces in the middle of the string is not read right -/
theorem text_of_substituted (hval : InertValue val.toList) (hblank : val.toList.head? = some ' ')
    (hp : (bare text name rest).Canonical) (hunclosed : rest.isUnclosed = false)
    (hlong : utf8Length (bare text name rest).rendered < utf8Length val.toList)
    (h : EndsWith (substituteTurn (constant val) location) ((bare text name rest).braces (constant val))
      (Replaced ((bare text name rest).expanded (constant val)))) : rest = done [] ∨ text = [] := by
  rcases braces_blank hblank hp.2.2.1 hunclosed with hrest | ⟨more, hmore⟩
  · exact Or.inl hrest
  by_contra hplace
  obtain ⟨hrest, htext⟩ := not_or.mp hplace
  have hpair := not_pair_constant hval hp hunclosed
  rw [braces, hmore] at hpair h
  obtain ⟨read, left, rfl, hlen, h⟩ := split_of_endsWith hpair hp.1 hp.2.1.1 (not_replaced_panic _) h
  have hfree : '$' ∉ text ++ val.toList := by simp [hp.1, hval.dollar]
  have hpair' : ¬ ['$', '{'] <:+: left ++ ' ' :: more := fun h => hpair (h.trans ⟨text ++ '$' :: read, [], by simp⟩)
  cases left with
  | nil => exact htext (Core.utf8Length_eq_zero_iff.mp hlen.symm)
  | cons c left =>
    simp only [rendered, Core.utf8Length_append, Core.utf8Length_cons] at hlong
    by_cases hc : c = '$'
    · -- what is left of the name is a name itself, behind a long text
      obtain rfl := hc
      obtain ⟨read', left', rfl, hlen', _⟩ := split_of_endsWith (not_pair_of_front hfree hpair') hfree
        (fun hmem => hp.2.1.1 (by simp [hmem])) (not_replaced_panic _) h
      simp only [Core.utf8Length_append] at hlong hlen'
      omega
    · -- what is left of the name stays
      have hfree' : '$' ∉ text ++ val.toList ++ [c] := by simp [hp.1, hval.dollar, Ne.symm hc]
      have hpair'' : ¬ ['$', '{'] <:+: text ++ val.toList ++ [c] ++ (left ++ ' ' :: more) := by
        simpa using not_pair_of_front hfree hpair'
      obtain ⟨out, hout⟩ := endsWith_front (constant_plain hval) (fun _ => by simp [constant]) hfree' hpair''
        (by simpa using h)
      obtain ⟨expected, hexpected, heq⟩ := Option.map_eq_some_iff.mp hout
      have hhead := (expanded_blank hblank hp.2.2.1 hunclosed hexpected).resolve_left hrest
      have hsame : expected = c :: out := by simpa using heq
      rw [hsame] at hhead
      obtain rfl : c = ' ' := Option.some.inj hhead
      exact hp.2.1.1 (by simp)

/-- nor is one in front of a name in braces -/
theorem front_of_substituted (hval : InertValue val.toList) (hsolid : ' ' ∉ val.toList)
    (hp : (bare [] name rest).Canonical) (hunclosed : rest.isUnclosed = false)
    (h : EndsWith (substituteTurn (constant val) location) ((bare [] name rest).braces (constant val))
      (Replaced ((bare [] name rest).expanded (constant val)))) : rest = done [] ∨ rest.front ≠ [] := by
  rcases hp.2.2.1.cases hunclosed with hrest | hfront | ⟨name', rest', rfl⟩
  · exact Or.inl hrest
  · exact Or.inr (front_ne_nil hfront)
  exfalso
  have hpair := not_pair_constant hval hp hunclosed
  have hexpected : ∀ out, (bare [] name (braced [] name' rest')).expanded (constant val) = some out →
      ∃ out', out = val.toList ++ (val.toList ++ out') := by
    intro out hout
    obtain ⟨_, hrest, rfl⟩ := Option.map_eq_some_iff.mp hout
    obtain ⟨out', _, rfl⟩ := Option.map_eq_some_iff.mp hrest
    exact ⟨out', rfl⟩
  obtain ⟨c, chars, hchars⟩ := List.exists_cons_of_ne_nil hval.nonempty
  rw [braces, List.nil_append] at hpair h
  cases hcut : cut [' '] (name ++ (braced [] name' rest').braces (constant val)) with
  | none =>
    -- all the rest of the string is read
    have hname := Core.cut_singleton_eq_none_iff.mp hcut
    have hturn : printTurn (constant val) location ('$' :: (name ++ (braced [] name' rest').braces (constant val))) =
        (bareValue (constant val) location _).map fun val => .inl ([] ++ val) :=
      @printTurn_last (constant val) location [] _ hpair List.not_mem_nil hname
    rw [substitute_value hturn rfl, List.nil_append,
      substitute_last (printTurn_plain (constant val) location hval.dollar)] at h
    obtain ⟨out', hout'⟩ := hexpected _ (h.2 _ rfl)
    have hlen := congrArg List.length hout'
    simp only [List.length_append, hchars, List.length_cons] at hlen
    omega
  | some parts =>
    -- the value is read as a part of the name
    obtain ⟨read, more⟩ := parts
    have hread := Core.not_mem_of_cut_singleton hcut
    have hsplit : name ++ (braced [] name' rest').braces (constant val) = read ++ ' ' :: more := by
      simpa using Core.eq_of_cut hcut
    rw [hsplit] at hpair h
    obtain ⟨read, left, rfl, hlen, h⟩ :=
      @split_of_endsWith location _ val [] _ _ hpair List.not_mem_nil hread (not_replaced_panic _) h
    obtain rfl : left = [] := Core.utf8Length_eq_zero_iff.mp hlen
    have hfree : '$' ∉ val.toList ++ [' '] := by simp [hval.dollar]
    have hpair' : ¬ ['$', '{'] <:+: val.toList ++ [' '] ++ more := by
      rw [List.append_assoc]
      exact not_pair_of_front hval.dollar fun h => hpair (h.trans ⟨'$' :: read, [], by simp⟩)
    obtain ⟨out, hout⟩ := endsWith_front (constant_plain hval) (fun _ => by simp [constant]) hfree hpair'
      (by simpa using h)
    obtain ⟨out', hout'⟩ := hexpected _ hout
    rw [List.append_assoc, List.append_cancel_left_eq, hchars] at hout'
    exact hsolid (by rw [hchars, ← (List.cons.inj hout').1]; exact List.mem_cons_self)

/-- with a long value that starts with a blank, and with one that has none, names are read right at the ends only -/
theorem atEnds_of_constant {spaced solid : String} (hspaced : InertValue spaced.toList)
    (hblank : spaced.toList.head? = some ' ') (hsolid : InertValue solid.toList) (hnone : ' ' ∉ solid.toList)
    (hp : p.Canonical) (hunclosed : p.isUnclosed = false)
    (hlong : utf8Length p.rendered < utf8Length spaced.toList)
    (h : EndsWith (substituteTurn (constant spaced) location) (p.braces (constant spaced))
      (Replaced (p.expanded (constant spaced))))
    (h' : EndsWith (substituteTurn (constant solid) location) (p.braces (constant solid))
      (Replaced (p.expanded (constant solid)))) : p.AtEnds true := by
  cases p with
  | done text | unclosed text tail => trivial
  | braced text name rest =>
    have hdollar : '$' ∉ text ++ spaced.toList := by simp [hp.1, hspaced.dollar]
    have hlong' : utf8Length rest.rendered < utf8Length (text ++ spaced.toList) := by
      simp only [rendered, Core.utf8Length_append, Core.utf8Length_cons] at hlong ⊢
      omega
    exact atEnds_of_long hspaced hblank hp.2.2 hunclosed hdollar hlong' (not_replaced_panic _) h
  | bare text name rest =>
    refine ⟨hunclosed, ?_⟩
    rcases text_of_substituted hspaced hblank hp hunclosed hlong h with rfl | rfl
    · exact ⟨Or.inl rfl, trivial⟩
    · refine ⟨(front_of_substituted hsolid hnone hp hunclosed h').imp_right fun hfront => ⟨rfl, rfl, hfront⟩, ?_⟩
      rcases braces_blank hblank hp.2.2.1 hunclosed with rfl | ⟨more, hmore⟩
      · trivial
      · have hpair := not_pair_constant hspaced hp hunclosed
        rw [braces, hmore] at hpair h
        obtain ⟨read, left, rfl, hlen, h⟩ := split_of_endsWith hpair List.not_mem_nil hp.2.1.1 (not_replaced_panic _) h
        obtain rfl : left = [] := Core.utf8Length_eq_zero_iff.mp hlen
        refine atEnds_of_long hspaced hblank hp.2.2.2 hunclosed hspaced.dollar ?_ (not_replaced_panic _) (hmore ▸ h)
        simp only [rendered, Core.utf8Length_append, Core.utf8Length_cons] at hlong
        omega

end Reading
end

/-! ## Strings that are printed right with all plain values -/

theorem braces_of_substituted (hinert : ∀ name, InertValue (bracedValue programData name))
    (h : Substituted programData location s) : (reading s).InOrder ∧
      EndsWith (substituteTurn programData location) ((reading s).braces programData)
        (Replaced ((reading s).expanded programData)) := by
  have hp := canonical_reading s
  have hrendered : EndsWith (substituteTurn programData location) ([] ++ (reading s).rendered)
      (Replaced ((reading s).expanded programData)) := by
    rw [List.nil_append, rendered_reading]
    exact h
  obtain ⟨⟨_, horder⟩, hbraces⟩ := Reading.inOrder_of_endsWith hinert hp (not_pair_of_dollar hp.front_plain)
    (not_replaced_panic _) hrendered
  exact ⟨horder, hbraces⟩

/-- a value that is longer than the string and starts with a blank -/
def spaced (s : List Char) : String := String.ofList (' ' :: List.replicate (utf8Length s) 'x')

theorem spaced_toList (s : List Char) : (spaced s).toList = ' ' :: List.replicate (utf8Length s) 'x' :=
  String.toList_ofList

theorem printable_of_substituted (h : ∀ programData, {name | (programData name).isSome}.Finite →
    PlainTable programData → Substituted programData location s) : (reading s).Printable := by
  have hp := canonical_reading s
  have hfinite : {name | (noData name).isSome}.Finite := by simp [noData]
  have hempty : Substituted noData location s := h noData hfinite (by rintro _ _ ⟨⟩)
  have herror : ∀ name, InertValue (bracedValue noData name) := by
    intro name
    have hval : InertValue "ERROR".toList := ⟨⟨by decide, by decide⟩, by decide, by decide⟩
    exact hval
  obtain ⟨horder, hbraces⟩ := braces_of_substituted herror hempty
  refine ⟨horder, ?_⟩
  cases hunclosed : (reading s).isUnclosed with
  | true =>
    have hturn := @Reading.printTurn_unclosed noData location _ (fun name => (herror name).close) hp horder hunclosed
    rw [substitute_last hturn] at hbraces
    exact Reading.atEnds_of_expanded (hbraces.2 _ rfl) true
  | false =>
    have hconstant : ∀ val : String, InertValue val.toList →
        EndsWith (substituteTurn (constant val) location) ((reading s).braces (constant val))
          (Replaced ((reading s).expanded (constant val))) := by
      intro val hval
      have hright := substituted_of_finite (constant_plain hval) h
      exact (@braces_of_substituted (constant val) location s (fun _ => hval) hright).2
    have hspaced : InertValue (spaced s).toList := by
      rw [spaced_toList]
      exact ⟨⟨by simp, by simp⟩, by simp, List.cons_ne_nil _ _⟩
    have hsolid : InertValue "x".toList := ⟨⟨by decide, by decide⟩, by decide, by decide⟩
    refine Reading.atEnds_of_constant hspaced (by rw [spaced_toList]; rfl) hsolid (by decide) hp hunclosed ?_
      (hconstant _ hspaced) (hconstant _ hsolid)
    rw [rendered_reading, spaced_toList, Core.utf8Length_cons]
    have hlen := Core.length_le_utf8Length (List.replicate (utf8Length s) 'x')
    rw [List.length_replicate] at hlen
    have hpos := Char.utf8Size_pos ' '
    omega

/-! ## Values that all printable strings are printed right with -/

/-- the table with one value -/
def only (name val : String) : String → Option String := fun name' => if name' = name then some val else none

section
variable {val : String}

/-- a string with its reading, and a value for the name `a` -/
theorem substituted_reading (h : ∀ name s, (reading s).Printable → Substituted (only name val) location s) {p : Reading}
    (hp : p.Canonical) (hprintable : p.Printable) :
    EndsWith (substituteTurn (only "a" val) location) p.rendered (Replaced (p.expanded (only "a" val))) := by
  have hright := h "a" p.rendered (by rw [reading_rendered hp]; exact hprintable)
  rwa [Substituted, reading_rendered hp] at hright

/-- the first turn, at the name in braces -/
theorem substitute_only (ha : '$' ∉ a) (hclose : '}' ∉ a) :
    EndsWith (substituteTurn (only "a" val) location) (a ++ '$' :: '{' :: (['a'] ++ '}' :: b)) Q ↔
      EndsWith (substituteTurn (only "a" val) location) (a ++ val.toList ++ b) Q := by
  have hname : '}' ∉ ['a'] := by decide
  exact substitute_braced (not_pair_of_dollar ha) hclose hname

/-- in `}$a`, a brace closes in front of one that the value opens -/
theorem not_pair_of_substituted (h : ∀ name s, (reading s).Printable → Substituted (only name val) location s) :
    ¬ ['$', '{'] <:+: val.toList := by
  intro hpair
  have hright := @substituted_reading location val h (.bare ['}'] ['a'] (.done []))
    ⟨by decide, ⟨by decide, by decide⟩, Or.inl rfl, List.not_mem_nil⟩
    ⟨⟨by rintro ⟨⟩, trivial⟩, rfl, Or.inl rfl, trivial⟩
  have hturn := @printTurn_last (only "a" val) location ['}'] ['a'] (by decide) (by decide) (by decide)
  have hval : only "a" val (String.ofList ['a']) = some val := rfl
  rw [show (Reading.bare ['}'] ['a'] (.done [])).rendered = ['}'] ++ '$' :: ['a'] from rfl,
    substitute_value hturn hval] at hright
  obtain ⟨front, back, hval⟩ := hpair
  cases hcut : cut ['$', '{'] (['}'] ++ val.toList) with
  | none => exact Core.cut_eq_none_iff.mp hcut ⟨['}'] ++ front, back, by simp [← hval]⟩
  | some parts =>
    have hfront : '}' ∈ parts.1 := by
      rw [Core.cut_append_of_not_mem (by decide)] at hcut
      obtain ⟨_, _, rfl⟩ := Option.map_eq_some_iff.mp hcut
      exact List.mem_append_left _ List.mem_cons_self
    rw [substitute_error (printTurn_closed (only "a" val) location hcut hfront)] at hright
    exact not_replaced_panic _ hright

/-- in `${a}${a}`, the value closes a brace in front of one that opens -/
theorem close_of_substituted (h : ∀ name s, (reading s).Printable → Substituted (only name val) location s) :
    '}' ∉ val.toList := by
  have hright := @substituted_reading location val h (.braced [] ['a'] (.braced [] ['a'] (.done [])))
    ⟨by decide, by decide, by decide, by decide, List.not_mem_nil⟩ ⟨⟨by decide, by decide, trivial⟩, trivial⟩
  rw [show (Reading.braced [] ['a'] (.braced [] ['a'] (.done []))).rendered =
    [] ++ '$' :: '{' :: (['a'] ++ '}' :: '$' :: '{' :: ['a', '}']) from rfl,
    substitute_only List.not_mem_nil List.not_mem_nil] at hright
  exact close_of_endsWith (not_pair_of_substituted h) (not_replaced_panic _) hright

/-- in `${a} ` behind a text as long as the value, the value brings in a name that is not at the start -/
theorem dollar_of_substituted (h : ∀ name s, (reading s).Printable → Substituted (only name val) location s) :
    '$' ∉ val.toList := by
  intro hdollar
  have hpair := not_pair_of_substituted h
  obtain ⟨text, htext⟩ : ∃ text, text = List.replicate (utf8Length val.toList) 'x' := ⟨_, rfl⟩
  have hlen : utf8Length val.toList ≤ utf8Length text := by
    have hle := Core.length_le_utf8Length text
    rwa [htext, List.length_replicate, ← htext] at hle
  have hfree : '$' ∉ text ∧ '}' ∉ text := by simp [htext]
  have hblank : '$' ∉ [' '] := by decide
  have hright := @substituted_reading location val h (.braced text ['a'] (.done [' ']))
    ⟨hfree.1, by decide, hblank⟩ ⟨⟨hfree.2, trivial⟩, trivial⟩
  rw [show (Reading.braced text ['a'] (.done [' '])).rendered = text ++ '$' :: '{' :: (['a'] ++ '}' :: [' ']) from rfl,
    substitute_only hfree.1 hfree.2] at hright
  cases hcut : cut ['$'] val.toList with
  | none => exact Core.cut_singleton_eq_none_iff.mp hcut hdollar
  | some parts =>
    obtain ⟨front, back⟩ := parts
    have hval : val.toList = front ++ '$' :: back := by simpa using Core.eq_of_cut hcut
    cases hname : cut [' '] (back ++ [' ']) with
    | none => exact Core.cut_singleton_eq_none_iff.mp hname (by simp)
    | some parts =>
      obtain ⟨name, more⟩ := parts
      have hback : back ++ [' '] = name ++ ' ' :: more := by simpa using Core.eq_of_cut hname
      have hname := Core.not_mem_of_cut_singleton hname
      have hstate : text ++ val.toList ++ [' '] = text ++ front ++ '$' :: (name ++ ' ' :: more) := by
        rw [← hback, hval]
        simp
      have hpair' : ¬ ['$', '{'] <:+: text ++ front ++ '$' :: (name ++ ' ' :: more) := by
        rw [← hstate, List.append_assoc]
        exact not_pair_of_front hfree.1 (not_pair_append hpair hblank (Or.inr (by decide)))
      have hfront : '$' ∉ text ++ front := by simp [hfree.1, Core.not_mem_of_cut_singleton hcut]
      rw [hstate, substitute_error (printTurn_unread (only "a" val) location hpair' hfront hname ?_)] at hright
      · exact not_replaced_panic _ hright
      · rintro read left rfl hleft
        have hbytes := congrArg utf8Length hback
        have hpos := Char.utf8Size_pos '$'
        simp only [hval, Core.utf8Length_append, Core.utf8Length_cons, Core.utf8Length_nil] at hbytes hlen hleft
        omega

theorem plainValue_of_substituted (h : ∀ name s, (reading s).Printable → Substituted (only name val) location s) :
    PlainValue val.toList :=
  ⟨dollar_of_substituted h, close_of_substituted h⟩

end

/-! ## All strings and tables -/

/-- **Substitution.** A string that is legible with a table is printed with every reference replaced once. The printable
strings are the ones that this holds of with every table of plain values, and the plain values the ones that it holds
with for every printable string. -/
theorem substituted_iff (programData : String → Option String) (location : LocationInfo) (s : List Char)
    (val : String) :
    ((reading s).Legible programData → Substituted programData location s) ∧
    ((∀ programData', {name | (programData' name).isSome}.Finite → PlainTable programData' →
      Substituted programData' location s) ↔ (reading s).Printable) ∧
    ((∀ name s', (reading s').Printable → Substituted (only name val) location s') ↔ PlainValue val.toList) := by
  refine ⟨substituted_of_legible, ⟨printable_of_substituted, ?_⟩, plainValue_of_substituted, ?_⟩
  · intro hprintable programData' _ hplain
    exact substituted_of_legible (Reading.legible_of_printable hplain (canonical_reading s) hprintable)
  · intro hval name s' hprintable
    refine substituted_of_legible (Reading.legible_of_printable ?_ (canonical_reading s') hprintable)
    intro name' val' hname
    rw [only] at hname
    split_ifs at hname
    rwa [← Option.some.inj hname]

/-! ## Strings that are not printed right -/

/-- a name in the middle of a string panics, and a value that is its own reference is replaced for ever -/
theorem print_panics : (¬ ∀ programData location s, Substituted programData location s) ∧
    printTurn (only "n" "1") LocationInfo.empty "a $n b".toList = .error .panic ∧
    ∀ turns, Core.loop (printTurn (only "a" "${a}") LocationInfo.empty) turns "${a}".toList = none := by
  have hpanic : printTurn (only "n" "1") LocationInfo.empty "a $n b".toList = .error .panic := rfl
  refine ⟨?_, hpanic, ?_⟩
  · intro h
    have hright := h (only "n" "1") LocationInfo.empty "a $n b".toList
    rw [Substituted, substitute_error hpanic] at hright
    exact not_replaced_panic _ hright
  · have hturn : printTurn (only "a" "${a}") LocationInfo.empty "${a}".toList = .ok (.inl "${a}".toList) := rfl
    intro turns
    induction turns with
    | zero => rfl
    | succ turns ih =>
      rw [Core.loop, hturn]
      exact ih

end
end BigWorlds.Machine
