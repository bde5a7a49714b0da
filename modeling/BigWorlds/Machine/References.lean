/-
The references of a print string: what `!print` is to put values in place of.

A name in braces ends at the next brace that closes. A name without braces ends at a blank, at a name in braces, or with
the string. A name in braces that is not in the table is printed as an error, and a brace that is not closed opens no
name.

- `canonical_reading`, `rendered_reading`, `reading_rendered`: a string has one reading;
- `Reading.expanded`: the string with every reference replaced once;
- `Reading.Legible`: where no turn of the loop meets anything but these references;
- `Reading.Printable`: where the string by itself sees to that.
-/
import BigWorlds.Core.Bytes

namespace BigWorlds.Machine

open BigWorlds.Core (cut)

/-! ## Readings -/

/-- a string by its references, each with the text in front of it -/
inductive Reading where
  | done (text : List Char)
  | unclosed (text tail : List Char)
  | braced (text name : List Char) (rest : Reading)
  | bare (text name : List Char) (rest : Reading)
deriving DecidableEq, Repr

/-- a name without braces, and what follows it -/
def bareName : List Char → List Char × List Char
  | [] => ([], [])
  | c :: cs =>
    if c = ' ' ∨ ['$', '{'].isPrefixOf (c :: cs) then ([], c :: cs) else (c :: (bareName cs).1, (bareName cs).2)

/-- with `k` references at most -/
def readingUpTo : (k : ℕ) → List Char → Reading
  | 0, s => .done s
  | k + 1, s =>
    match cut ['$'] s with
    | none => .done s
    | some (text, '{' :: inner) =>
      match cut ['}'] inner with
      | none => .unclosed text inner
      | some (name, rest) => .braced text name (readingUpTo k rest)
    | some (text, rest) => .bare text (bareName rest).1 (readingUpTo k (bareName rest).2)

/-- there are no more references than characters -/
def reading (s : List Char) : Reading := readingUpTo s.length s

namespace Reading

/-- the string that is read -/
def rendered : Reading → List Char
  | done text => text
  | unclosed text tail => text ++ '$' :: '{' :: tail
  | braced text name rest => text ++ '$' :: '{' :: (name ++ '}' :: rest.rendered)
  | bare text name rest => text ++ '$' :: (name ++ rest.rendered)

/-- the text in front of the first reference -/
def front : Reading → List Char
  | done text | unclosed text _ | braced text _ _ | bare text _ _ => text

/-- what may follow a name without braces -/
def Follows : Reading → Prop
  | done text | unclosed text _ | braced text _ _ => text = [] ∨ text.head? = some ' '
  | bare text _ _ => text.head? = some ' '

/-- the references are where the string has them -/
def Canonical : Reading → Prop
  | done text => '$' ∉ text
  | unclosed text tail => '$' ∉ text ∧ '}' ∉ tail
  | braced text name rest => '$' ∉ text ∧ '}' ∉ name ∧ rest.Canonical
  | bare text name rest =>
    '$' ∉ text ∧ (' ' ∉ name ∧ ¬ ['$', '{'] <:+: '$' :: name) ∧ rest.Follows ∧ rest.Canonical

variable {p : Reading}

theorem Canonical.front_plain (h : p.Canonical) : '$' ∉ p.front := by
  cases p with
  | done text => exact h
  | unclosed text tail | braced text name rest | bare text name rest => exact h.1

theorem Follows.front (h : p.Follows) : p.front = [] ∨ p.front.head? = some ' ' := by
  cases p with
  | done text | unclosed text tail | braced text name rest => exact h
  | bare text name rest => exact Or.inr h

/-- what follows a name without braces is where the name ends -/
theorem Follows.rendered (h : p.Follows) :
    p.rendered = [] ∨ p.rendered.head? = some ' ' ∨ ['$', '{'].isPrefixOf p.rendered = true := by
  cases p with
  | done text =>
    rcases h with rfl | h
    · exact Or.inl rfl
    · exact Or.inr (Or.inl h)
  | unclosed text tail | braced text name rest =>
    rcases h with rfl | h
    · exact Or.inr (Or.inr (by simp [Reading.rendered, List.isPrefixOf]))
    · exact Or.inr (Or.inl (by rw [Reading.rendered, List.head?_append, h]; rfl))
  | bare text name rest =>
    have hhead : text.head? = some ' ' := h
    exact Or.inr (Or.inl (by rw [Reading.rendered, List.head?_append, hhead]; rfl))

end Reading

/-! ## The reading of a string -/

theorem bareName_cons (c : Char) (cs : List Char) : bareName (c :: cs) =
    if c = ' ' ∨ ['$', '{'].isPrefixOf (c :: cs) then ([], c :: cs)
    else (c :: (bareName cs).1, (bareName cs).2) := rfl

theorem bareName_append (cs : List Char) : (bareName cs).1 ++ (bareName cs).2 = cs := by
  induction cs with
  | nil => rfl
  | cons c cs ih =>
    rw [bareName_cons]
    split_ifs
    · rfl
    · rw [List.cons_append, ih]

theorem bareName_length (cs : List Char) : (bareName cs).2.length ≤ cs.length := by
  have hlen := congrArg List.length (bareName_append cs)
  rw [List.length_append] at hlen
  omega

/-- a name without braces has no blank and no name in braces -/
theorem bareName_spec (cs : List Char) : ' ' ∉ (bareName cs).1 ∧ ¬ ['$', '{'] <:+: (bareName cs).1 := by
  induction cs with
  | nil => simp [bareName]
  | cons c cs ih =>
    rw [bareName_cons]
    split_ifs with h
    · simp
    · obtain ⟨hblank, hpair⟩ := not_or.mp h
      refine ⟨List.not_mem_cons_of_ne_of_not_mem (Ne.symm hblank) ih.1, ?_⟩
      rw [List.infix_cons_iff, not_or]
      refine ⟨?_, ih.2⟩
      intro hstart
      have hcs : (c :: (bareName cs).1) <+: c :: cs := by
        rw [List.cons_prefix_cons]
        exact ⟨rfl, (bareName cs).2, bareName_append cs⟩
      exact hpair (List.isPrefixOf_iff_prefix.mpr (hstart.trans hcs))

/-- it ends where it has to -/
theorem bareName_stop (cs : List Char) : (bareName cs).2 = [] ∨ (bareName cs).2.head? = some ' ' ∨
    ['$', '{'].isPrefixOf (bareName cs).2 = true := by
  induction cs with
  | nil => exact Or.inl rfl
  | cons c cs ih =>
    rw [bareName_cons]
    split_ifs with h
    · rcases h with rfl | h
      · exact Or.inr (Or.inl rfl)
      · exact Or.inr (Or.inr h)
    · exact ih

/-- where the name is known -/
theorem bareName_of_stop {name rest : List Char} (hblank : ' ' ∉ name) (hpair : ¬ ['$', '{'] <:+: name)
    (hrest : rest = [] ∨ rest.head? = some ' ' ∨ ['$', '{'].isPrefixOf rest = true) :
    bareName (name ++ rest) = (name, rest) := by
  induction name with
  | nil =>
    cases rest with
    | nil => rfl
    | cons c cs =>
      have hstop : c = ' ' ∨ ['$', '{'].isPrefixOf (c :: cs) = true := by simpa using hrest
      rw [List.nil_append, bareName_cons, if_pos hstop]
  | cons c name ih =>
    rw [List.infix_cons_iff, not_or] at hpair
    obtain ⟨hc, hname⟩ := not_or.mp (List.mem_cons.not.mp hblank)
    have hgo : ¬ (c = ' ' ∨ ['$', '{'].isPrefixOf (c :: (name ++ rest)) = true) := by
      rintro (h | h)
      · exact hc h.symm
      · cases name with
        | cons d name => exact hpair.1 (by simpa [List.isPrefixOf, List.cons_prefix_cons] using h)
        | nil =>
          -- the second character of the pair would be the first one of the rest
          cases rest with
          | nil => simp [List.isPrefixOf] at h
          | cons d rest =>
            have hpair : '$' = c ∧ '{' = d := by simpa [List.isPrefixOf] using h
            rw [← hpair.2] at hrest
            simp [List.isPrefixOf] at hrest
    rw [List.cons_append, bareName_cons, if_neg hgo, ih hname hpair.2]

section
variable {k : ℕ} {s text name rest inner : List Char}

theorem readingUpTo_succ (k : ℕ) (s : List Char) : readingUpTo (k + 1) s =
    match Core.cut ['$'] s with
    | none => .done s
    | some (text, '{' :: inner) =>
      match Core.cut ['}'] inner with
      | none => .unclosed text inner
      | some (name, rest) => .braced text name (readingUpTo k rest)
    | some (text, rest) => .bare text (bareName rest).1 (readingUpTo k (bareName rest).2) := rfl

theorem readingUpTo_done (h : '$' ∉ s) (k : ℕ) : readingUpTo k s = .done s := by
  cases k with
  | zero => rfl
  | succ k => rw [readingUpTo_succ, Core.cut_singleton_eq_none_iff.2 h]

theorem readingUpTo_unclosed (htext : '$' ∉ text) (hinner : '}' ∉ inner) (k : ℕ) :
    readingUpTo (k + 1) (text ++ '$' :: '{' :: inner) = .unclosed text inner := by
  simp only [readingUpTo_succ, Core.cut_singleton htext, Core.cut_singleton_eq_none_iff.2 hinner]

theorem readingUpTo_braced (htext : '$' ∉ text) (hname : '}' ∉ name) (k : ℕ) (rest : List Char) :
    readingUpTo (k + 1) (text ++ '$' :: '{' :: (name ++ '}' :: rest)) = .braced text name (readingUpTo k rest) := by
  simp only [readingUpTo_succ, Core.cut_singleton htext, Core.cut_singleton hname]

theorem readingUpTo_bare (htext : '$' ∉ text) (hrest : rest.head? ≠ some '{') (k : ℕ) :
    readingUpTo (k + 1) (text ++ '$' :: rest) = .bare text (bareName rest).1 (readingUpTo k (bareName rest).2) := by
  rw [readingUpTo_succ, Core.cut_singleton htext]
  cases rest with
  | nil => rfl
  | cons c cs =>
    have hc : c ≠ '{' := fun hc => hrest (by rw [hc]; rfl)
    split
    · rename_i h
      exact absurd h (by simp)
    · rename_i h
      exact absurd (List.cons.inj (Prod.mk.inj (Option.some.inj h)).2).1 hc
    · rename_i h
      obtain ⟨rfl, rfl⟩ := Prod.mk.inj (Option.some.inj h)
      rfl

/-- the shapes of a string by its first reference -/
theorem exists_shape (s : List Char) : '$' ∉ s ∨ ∃ text, '$' ∉ text ∧
    ((∃ inner, '}' ∉ inner ∧ s = text ++ '$' :: '{' :: inner) ∨
      (∃ name rest, '}' ∉ name ∧ s = text ++ '$' :: '{' :: (name ++ '}' :: rest)) ∨
      ∃ rest : List Char, rest.head? ≠ some '{' ∧ s = text ++ '$' :: rest) := by
  cases hcut : cut ['$'] s with
  | none => exact Or.inl (Core.cut_singleton_eq_none_iff.1 hcut)
  | some parts =>
    obtain ⟨text, rest⟩ := parts
    have hs : s = text ++ '$' :: rest := by simpa using Core.eq_of_cut hcut
    refine Or.inr ⟨text, Core.not_mem_of_cut_singleton hcut, ?_⟩
    by_cases hrest : rest.head? = some '{'
    · obtain ⟨inner, rfl⟩ := List.head?_eq_some_iff.mp hrest
      cases hname : cut ['}'] inner with
      | none => exact Or.inl ⟨inner, Core.cut_singleton_eq_none_iff.1 hname, hs⟩
      | some parts =>
        obtain ⟨name, rest⟩ := parts
        have hinner : inner = name ++ '}' :: rest := by simpa using Core.eq_of_cut hname
        exact Or.inr (Or.inl ⟨name, rest, Core.not_mem_of_cut_singleton hname, hinner ▸ hs⟩)
    · exact Or.inr (Or.inr ⟨rest, hrest, hs⟩)

theorem rendered_readingUpTo (h : s.length ≤ k) : (readingUpTo k s).rendered = s := by
  induction k generalizing s with
  | zero => rfl
  | succ k ih =>
    rcases exists_shape s with hs | ⟨text, htext, ⟨inner, hinner, rfl⟩ | ⟨name, rest, hname, rfl⟩ | ⟨rest, hrest, rfl⟩⟩
    · rw [readingUpTo_done hs]
      rfl
    · rw [readingUpTo_unclosed htext hinner]
      rfl
    · rw [readingUpTo_braced htext hname, Reading.rendered, ih (by simp at h; omega)]
    · have hlen := bareName_length rest
      rw [readingUpTo_bare htext hrest, Reading.rendered, ih (by simp at h; omega), bareName_append]

theorem follows_readingUpTo (hs : s = [] ∨ s.head? = some ' ' ∨ ['$', '{'].isPrefixOf s = true) (h : s.length ≤ k) :
    (readingUpTo k s).Follows := by
  have hhead : ∀ text rest : List Char, '$' ∉ text → text ++ '$' :: rest = [] ∨
      (text ++ '$' :: rest).head? = some ' ' ∨ ['$', '{'].isPrefixOf (text ++ '$' :: rest) = true →
      text.head? = some ' ' ∨ text = [] ∧ rest.head? = some '{' := by
    intro text rest htext hs
    cases text with
    | nil =>
      cases rest with
      | nil => simp [List.isPrefixOf] at hs
      | cons d rest =>
        have hd : '{' = d := by simpa [List.isPrefixOf] using hs
        exact Or.inr ⟨rfl, by rw [hd]; rfl⟩
    | cons c text =>
      have hc : '$' ≠ c := (not_or.mp (List.mem_cons.not.mp htext)).1
      rcases hs with hs | hs | hs
      · exact absurd hs (List.cons_ne_nil _ _)
      · exact Or.inl hs
      · exact absurd (List.cons_prefix_cons.mp (List.isPrefixOf_iff_prefix.mp hs)).1 hc
  cases k with
  | zero =>
    obtain rfl := List.length_eq_zero_iff.mp (Nat.le_zero.mp h)
    exact Or.inl rfl
  | succ k =>
    rcases exists_shape s with hs' | ⟨text, htext, ⟨inner, hinner, rfl⟩ | ⟨name, rest, hname, rfl⟩ | ⟨rest, hrest, rfl⟩⟩
    · rw [readingUpTo_done hs']
      rcases hs with hs | hs | hs
      · exact Or.inl hs
      · exact Or.inr hs
      · exact absurd ((List.isPrefixOf_iff_prefix.mp hs).subset List.mem_cons_self) hs'
    · rw [readingUpTo_unclosed htext hinner]
      exact (hhead text _ htext hs).symm.imp_left And.left
    · rw [readingUpTo_braced htext hname]
      exact (hhead text _ htext hs).symm.imp_left And.left
    · rw [readingUpTo_bare htext hrest]
      exact (hhead text rest htext hs).resolve_right fun h => hrest h.2

theorem canonical_readingUpTo (h : s.length ≤ k) : (readingUpTo k s).Canonical := by
  induction k generalizing s with
  | zero =>
    obtain rfl := List.length_eq_zero_iff.mp (Nat.le_zero.mp h)
    exact List.not_mem_nil
  | succ k ih =>
    rcases exists_shape s with hs | ⟨text, htext, ⟨inner, hinner, rfl⟩ | ⟨name, rest, hname, rfl⟩ | ⟨rest, hrest, rfl⟩⟩
    · rw [readingUpTo_done hs]
      exact hs
    · rw [readingUpTo_unclosed htext hinner]
      exact ⟨htext, hinner⟩
    · rw [readingUpTo_braced htext hname]
      exact ⟨htext, hname, ih (by simp at h; omega)⟩
    · have hlen := bareName_length rest
      have hspec := bareName_spec rest
      rw [readingUpTo_bare htext hrest]
      rw [List.length_append, List.length_cons] at h
      refine ⟨htext, ⟨hspec.1, ?_⟩, follows_readingUpTo (bareName_stop rest) (by omega), ih (by omega)⟩
      rw [List.infix_cons_iff, not_or]
      refine ⟨?_, hspec.2⟩
      intro hstart
      obtain ⟨_, hname⟩ := List.cons_prefix_cons.mp hstart
      obtain ⟨more, hmore⟩ := hname.trans ⟨(bareName rest).2, bareName_append rest⟩
      exact hrest (by rw [← hmore]; rfl)

/-- a string is what is read -/
theorem rendered_reading (s : List Char) : (reading s).rendered = s := rendered_readingUpTo (Nat.le_refl _)

theorem canonical_reading (s : List Char) : (reading s).Canonical := canonical_readingUpTo (Nat.le_refl _)

/-- **One reading.** A string has one reading only. -/
theorem reading_rendered {p : Reading} (h : p.Canonical) : reading p.rendered = p := by
  suffices hk : ∀ k, p.rendered.length ≤ k → readingUpTo k p.rendered = p from hk _ (Nat.le_refl _)
  induction p with
  | done text => exact fun k _ => readingUpTo_done h k
  | unclosed text tail =>
    intro k hk
    obtain ⟨k, rfl⟩ : ∃ j, k = j + 1 := Nat.exists_eq_add_one.mpr (by simp [Reading.rendered] at hk; omega)
    exact readingUpTo_unclosed h.1 h.2 k
  | braced text name rest ih =>
    intro k hk
    simp only [Reading.rendered, List.length_append, List.length_cons] at hk
    obtain ⟨k, rfl⟩ : ∃ j, k = j + 1 := Nat.exists_eq_add_one.mpr (by omega)
    rw [Reading.rendered, readingUpTo_braced h.1 h.2.1, ih h.2.2 k (by omega)]
  | bare text name rest ih =>
    intro k hk
    obtain ⟨htext, ⟨hblank, hpair⟩, hfollows, hrest⟩ := h
    simp only [Reading.rendered, List.length_append, List.length_cons] at hk
    obtain ⟨k, rfl⟩ : ∃ j, k = j + 1 := Nat.exists_eq_add_one.mpr (by omega)
    rw [List.infix_cons_iff, not_or] at hpair
    have hname := bareName_of_stop hblank hpair.2 hfollows.rendered
    have hhead : (name ++ rest.rendered).head? ≠ some '{' := by
      intro hhead
      cases name with
      | nil =>
        obtain ⟨more, hmore⟩ := List.head?_eq_some_iff.mp hhead
        have hstop := hfollows.rendered
        rw [show rest.rendered = '{' :: more from hmore] at hstop
        simp [List.isPrefixOf] at hstop
      | cons c name =>
        obtain rfl := Option.some.inj hhead
        exact hpair.1 (by simp [List.cons_prefix_cons])
    rw [Reading.rendered, readingUpTo_bare htext hhead, hname, ih hrest k (by omega)]

example : reading "$n of ${m}".toList = .bare [] ['n'] (.braced [' ', 'o', 'f', ' '] ['m'] (.done [])) := rfl

end

/-! ## What is put in place of references -/

section
variable (programData : String → Option String)

/-- what is put in place of a name in braces -/
def bracedValue (name : List Char) : List Char := ((programData (String.ofList name)).getD "ERROR").toList

namespace Reading

/-- every reference replaced once; none if there is no value for a name without braces -/
def expanded : Reading → Option (List Char)
  | done text => some text
  | unclosed text tail => some (text ++ '$' :: '{' :: tail)
  | braced text name rest => rest.expanded.map fun out => text ++ bracedValue programData name ++ out
  | bare text name rest =>
    (programData (String.ofList name)).bind fun val => rest.expanded.map fun out => text ++ val.toList ++ out

/-- every name in braces replaced once -/
def braces : Reading → List Char
  | done text => text
  | unclosed text tail => text ++ '$' :: '{' :: tail
  | braced text name rest => text ++ bracedValue programData name ++ rest.braces
  | bare text name rest => text ++ '$' :: (name ++ rest.braces)

section
variable {programData} {text name : List Char} {rest : Reading} (out : List Char)

/-! The first reference of a string, behind `out`. -/

theorem append_rendered_braced : out ++ (braced text name rest).rendered =
    out ++ text ++ '$' :: '{' :: (name ++ '}' :: rest.rendered) := by simp [rendered]

theorem append_rendered_bare : out ++ (bare text name rest).rendered =
    out ++ text ++ '$' :: name ++ rest.rendered := by simp [rendered]

theorem append_braces_braced : out ++ (braced text name rest).braces programData =
    out ++ text ++ bracedValue programData name ++ rest.braces programData := by simp [braces]

theorem append_braces_bare : out ++ (bare text name rest).braces programData =
    out ++ text ++ '$' :: (name ++ rest.braces programData) := by simp [braces]

end

/-- behind `out`, which is done with: nothing in front of a name in braces is taken for one, or closes it -/
def BracesLegible : (out : List Char) → Reading → Prop
  | _, done _ | _, unclosed _ _ => True
  | out, braced text name rest =>
    '}' ∉ out ++ text ∧ ¬ ['$', '{'] <:+: out ++ text ∧ rest.BracesLegible (out ++ text ++ bracedValue programData name)
  | out, bare text name rest => rest.BracesLegible (out ++ text ++ '$' :: name)

/-- behind `out`, with all names in braces replaced: a name without braces is the first to be found, and it stands at
the end, or at the start and in front of a blank; and nothing is found in what is put in place of the names -/
def NamesLegible : (out : List Char) → Reading → Prop
  | out, done text => '$' ∉ out ++ text ∨ ['$', '{'] <:+: out ++ text ∧ '}' ∉ out ++ text
  | out, unclosed text _ => '}' ∉ out ++ text
  | out, braced text name rest => rest.NamesLegible (out ++ text ++ bracedValue programData name)
  | out, bare text name rest =>
    ¬ ['$', '{'] <:+: out ++ text ++ '$' :: (name ++ rest.braces programData) ∧ '$' ∉ out ++ text ∧
      (rest.braces programData = [] ∨ out ++ text = [] ∧ (rest.braces programData).head? = some ' ') ∧
      ∀ val, programData (String.ofList name) = some val → rest.NamesLegible (out ++ text ++ val.toList)

/-- no turn of the loop meets anything but the references of the string -/
structure Legible (p : Reading) : Prop where
  braces : p.BracesLegible programData []
  names : p.NamesLegible programData []

end Reading
end

/-! ## What the string sees to -/

namespace Reading

/-- a name in braces is opened -/
def opens : Reading → Bool
  | done _ => false
  | unclosed _ _ | braced _ _ _ => true
  | bare _ _ rest => rest.opens

/-- a name in braces is opened that is not closed -/
def isUnclosed : Reading → Bool
  | done _ => false
  | unclosed _ _ => true
  | braced _ _ rest | bare _ _ rest => rest.isUnclosed

/-- outside of names in braces, no brace closes before one is opened -/
def InOrder : Reading → Prop
  | done _ => True
  | unclosed text _ => '}' ∉ text
  | braced text _ rest => '}' ∉ text ∧ rest.InOrder
  | bare text name rest => (rest.opens = true → '}' ∉ text ∧ '}' ∉ name) ∧ rest.InOrder

/-- a name without braces stands at the end, or at the start of the string and in front of a blank; and there is none if
a brace is not closed -/
def AtEnds : (start : Bool) → Reading → Prop
  | _, done _ | _, unclosed _ _ => True
  | _, braced _ _ rest => rest.AtEnds false
  | start, bare text _ rest =>
    rest.isUnclosed = false ∧ (rest = done [] ∨ start = true ∧ text = [] ∧ rest.front ≠ []) ∧ rest.AtEnds false

structure Printable (p : Reading) : Prop where
  inOrder : p.InOrder
  atEnds : p.AtEnds true

end Reading

/-- a value that brings in neither a reference nor the end of one -/
structure PlainValue (val : List Char) : Prop where
  dollar : '$' ∉ val
  close : '}' ∉ val

def PlainTable (programData : String → Option String) : Prop :=
  ∀ name val, programData name = some val → PlainValue val.toList

end BigWorlds.Machine
