/-
Texts by their characters, and positions in them by bytes. A position inside a character is none. Nothing here is about
a particular text.

- `sliceFrom_eq_some_iff`, `sliceTo_eq_some_iff`, `insertStr_eq_some_iff`: what stands at a position;
- `eq_of_cut`, `cut_eq_none_iff`, `cut_pair`: what is found in a text;
- `pieces_of_cut`, `pieces_of_not_infix`, `exists_pieces`: what it splits into.
-/
import Mathlib.Algebra.Ring.Nat
import Mathlib.Data.List.Basic
import Mathlib.Data.List.Infix

namespace BigWorlds.Core

/-- the number of bytes -/
def utf8Length (cs : List Char) : ℕ := (cs.map Char.utf8Size).sum

/-- `&s[index..]` -/
def sliceFrom : List Char → (index : ℕ) → Option (List Char)
  | cs, 0 => some cs
  | [], _ + 1 => none
  | c :: cs, index => if index < c.utf8Size then none else sliceFrom cs (index - c.utf8Size)

/-- `&s[..index]` -/
def sliceTo : List Char → (index : ℕ) → Option (List Char)
  | _, 0 => some []
  | [], _ + 1 => none
  | c :: cs, index => if index < c.utf8Size then none else (sliceTo cs (index - c.utf8Size)).map (c :: ·)

/-- `&s[start..stop]` -/
def slice (cs : List Char) (start stop : ℕ) : Option (List Char) :=
  if start ≤ stop then (sliceTo cs stop).bind (sliceFrom · start) else none

/-- `String::insert_str` -/
def insertStr (cs : List Char) (index : ℕ) (text : List Char) : Option (List Char) := do
  let front ← sliceTo cs index
  let back ← sliceFrom cs index
  return front ++ text ++ back

/-- what stands before and after the first place where the pattern occurs -/
def cut (pattern : List Char) : List Char → Option (List Char × List Char)
  | [] => if pattern = [] then some ([], []) else none
  | c :: cs =>
    if pattern.isPrefixOf (c :: cs) then some ([], (c :: cs).drop pattern.length)
    else (cut pattern cs).map fun parts => (c :: parts.1, parts.2)

/-- `str::find` -/
def find (pattern cs : List Char) : Option ℕ := (cut pattern cs).map fun parts => utf8Length parts.1

variable {cs front back text pattern : List Char} {c : Char} {index : ℕ}

@[simp] theorem utf8Length_nil : utf8Length [] = 0 := rfl

@[simp] theorem utf8Length_cons : utf8Length (c :: cs) = c.utf8Size + utf8Length cs := rfl

@[simp] theorem utf8Length_append : utf8Length (front ++ back) = utf8Length front + utf8Length back := by
  simp [utf8Length]

theorem length_le_utf8Length (cs : List Char) : cs.length ≤ utf8Length cs := by
  induction cs with
  | nil => exact Nat.le_refl 0
  | cons c cs ih =>
    have hpos := c.utf8Size_pos
    rw [List.length_cons, utf8Length_cons]
    omega

theorem utf8Length_eq_zero_iff : utf8Length cs = 0 ↔ cs = [] := by
  constructor
  · intro h
    have hle := length_le_utf8Length cs
    exact List.eq_nil_of_length_eq_zero (by omega)
  · rintro rfl
    rfl

theorem sliceFrom_eq_some_iff :
    sliceFrom cs index = some back ↔ ∃ front, cs = front ++ back ∧ utf8Length front = index := by
  induction cs generalizing index with
  | nil =>
    cases index with
    | zero =>
      constructor
      · intro h
        exact ⟨[], by rw [← Option.some.inj h]; rfl, rfl⟩
      · intro ⟨front, hcs, _⟩
        obtain ⟨rfl, rfl⟩ := List.append_eq_nil_iff.mp hcs.symm
        rfl
    | succ index =>
      refine ⟨fun h => absurd h (by rintro ⟨⟩), fun ⟨front, hcs, hlen⟩ => ?_⟩
      obtain ⟨rfl, rfl⟩ := List.append_eq_nil_iff.mp hcs.symm
      exact absurd hlen (by simp)
  | cons c cs ih =>
    have hpos := c.utf8Size_pos
    cases index with
    | zero =>
      constructor
      · intro h
        exact ⟨[], by rw [← Option.some.inj h]; rfl, rfl⟩
      · intro ⟨front, hcs, hlen⟩
        rw [utf8Length_eq_zero_iff.1 hlen] at hcs
        rw [sliceFrom, hcs, List.nil_append]
    | succ index =>
      rw [show sliceFrom (c :: cs) (index + 1) =
        if index + 1 < c.utf8Size then none else sliceFrom cs (index + 1 - c.utf8Size) from rfl]
      constructor
      · intro h
        split_ifs at h with hlt
        obtain ⟨front, rfl, hlen⟩ := ih.mp h
        exact ⟨c :: front, rfl, by rw [utf8Length_cons]; omega⟩
      · intro ⟨front, hcs, hlen⟩
        cases front with
        | nil => exact absurd hlen (by simp)
        | cons d front =>
          obtain ⟨rfl, rfl⟩ := List.cons.inj hcs
          rw [utf8Length_cons] at hlen
          rw [if_neg (by omega)]
          exact ih.mpr ⟨front, rfl, by omega⟩

theorem sliceTo_eq_some_iff :
    sliceTo cs index = some front ↔ ∃ back, cs = front ++ back ∧ utf8Length front = index := by
  induction cs generalizing index front with
  | nil =>
    cases index with
    | zero =>
      constructor
      · intro h
        exact ⟨[], by rw [← Option.some.inj h]; rfl, by rw [← Option.some.inj h]; rfl⟩
      · intro ⟨back, _, hlen⟩
        rw [utf8Length_eq_zero_iff.1 hlen]
        rfl
    | succ index =>
      refine ⟨fun h => absurd h (by rintro ⟨⟩), fun ⟨back, hcs, hlen⟩ => ?_⟩
      obtain ⟨rfl, rfl⟩ := List.append_eq_nil_iff.mp hcs.symm
      exact absurd hlen (by simp)
  | cons c cs ih =>
    have hpos := c.utf8Size_pos
    cases index with
    | zero =>
      constructor
      · intro h
        exact ⟨c :: cs, by rw [← Option.some.inj h]; rfl, by rw [← Option.some.inj h]; rfl⟩
      · intro ⟨back, _, hlen⟩
        rw [utf8Length_eq_zero_iff.1 hlen]
        rfl
    | succ index =>
      rw [show sliceTo (c :: cs) (index + 1) =
        if index + 1 < c.utf8Size then none else (sliceTo cs (index + 1 - c.utf8Size)).map (c :: ·) from rfl]
      constructor
      · intro h
        split_ifs at h with hlt
        obtain ⟨rest, hrest, rfl⟩ := Option.map_eq_some_iff.mp h
        obtain ⟨back, rfl, hlen⟩ := ih.mp hrest
        exact ⟨back, rfl, by rw [utf8Length_cons]; omega⟩
      · intro ⟨back, hcs, hlen⟩
        cases front with
        | nil => exact absurd hlen (by simp)
        | cons d front =>
          obtain ⟨rfl, rfl⟩ := List.cons.inj hcs
          rw [utf8Length_cons] at hlen
          rw [if_neg (by omega), ih.mpr ⟨back, rfl, by omega⟩]
          rfl

@[simp] theorem sliceFrom_append (front back : List Char) :
    sliceFrom (front ++ back) (utf8Length front) = some back :=
  sliceFrom_eq_some_iff.2 ⟨front, rfl, rfl⟩

@[simp] theorem sliceTo_append (front back : List Char) : sliceTo (front ++ back) (utf8Length front) = some front :=
  sliceTo_eq_some_iff.2 ⟨back, rfl, rfl⟩

/-- two fronts of a text with the same number of bytes are the same -/
theorem front_unique {front' back' : List Char} (h : front ++ back = front' ++ back')
    (hlen : utf8Length front = utf8Length front') : front = front' ∧ back = back' := by
  have hfront := sliceTo_append front back
  rw [h, hlen, sliceTo_append] at hfront
  obtain rfl := Option.some.inj hfront
  exact ⟨rfl, List.append_cancel_left h⟩

theorem insertStr_eq_some_iff {out : List Char} :
    insertStr cs index text = some out ↔
      ∃ front back, cs = front ++ back ∧ utf8Length front = index ∧ out = front ++ text ++ back := by
  constructor
  · intro h
    obtain ⟨front, hfront, h⟩ := Option.bind_eq_some_iff.mp h
    obtain ⟨back, hback, h⟩ := Option.bind_eq_some_iff.mp h
    obtain ⟨back', rfl, hlen⟩ := sliceTo_eq_some_iff.1 hfront
    obtain ⟨front', heq, hlen'⟩ := sliceFrom_eq_some_iff.1 hback
    obtain ⟨rfl, rfl⟩ := front_unique heq (hlen.trans hlen'.symm)
    exact ⟨front, back', rfl, hlen, (Option.some.inj h).symm⟩
  · rintro ⟨front, back, rfl, rfl, rfl⟩
    simp [insertStr]

/-! ## Cutting a text -/

theorem cut_nil : cut pattern [] = if pattern = [] then some ([], []) else none := rfl

theorem cut_cons : cut pattern (c :: cs) =
    if pattern.isPrefixOf (c :: cs) then some ([], (c :: cs).drop pattern.length)
    else (cut pattern cs).map fun parts => (c :: parts.1, parts.2) := rfl

theorem eq_of_cut (h : cut pattern cs = some (front, back)) : cs = front ++ pattern ++ back := by
  induction cs generalizing front with
  | nil =>
    rw [cut_nil] at h
    split_ifs at h with hp
    obtain ⟨rfl, rfl⟩ := Prod.mk.inj (Option.some.inj h)
    rw [hp]
    rfl
  | cons c cs ih =>
    rw [cut_cons] at h
    split_ifs at h with hp
    · obtain ⟨rfl, rfl⟩ := Prod.mk.inj (Option.some.inj h)
      obtain ⟨rest, hrest⟩ := List.isPrefixOf_iff_prefix.mp hp
      rw [← hrest, List.drop_left, List.nil_append]
    · obtain ⟨parts, hparts, heq⟩ := Option.map_eq_some_iff.mp h
      obtain ⟨rfl, rfl⟩ := Prod.mk.inj heq
      rw [ih hparts]
      rfl

theorem cut_eq_none_iff : cut pattern cs = none ↔ ¬ pattern <:+: cs := by
  induction cs with
  | nil =>
    rw [cut_nil, List.infix_nil]
    split_ifs with hp
    · exact ⟨fun h => absurd h (by simp), fun h => absurd hp h⟩
    · exact ⟨fun _ => hp, fun _ => rfl⟩
  | cons c cs ih =>
    rw [cut_cons, List.infix_cons_iff, ← List.isPrefixOf_iff_prefix]
    split_ifs with hp
    · exact ⟨fun h => absurd h (by simp), fun h => absurd (Or.inl hp) h⟩
    · rw [Option.map_eq_none_iff, ih]
      exact ⟨fun h => not_or.mpr ⟨hp, h⟩, fun h => (not_or.mp h).2⟩

/-- what stands in front of the first place of a pattern has none -/
theorem not_infix_of_cut (hne : pattern ≠ []) (h : cut pattern cs = some (front, back)) : ¬ pattern <:+: front := by
  induction cs generalizing front with
  | nil =>
    rw [cut_nil, if_neg hne] at h
    cases h
  | cons c cs ih =>
    rw [cut_cons] at h
    split_ifs at h with hp
    · obtain ⟨rfl, _⟩ := Prod.mk.inj (Option.some.inj h)
      rw [List.infix_nil]
      exact hne
    · obtain ⟨parts, hparts, heq⟩ := Option.map_eq_some_iff.mp h
      obtain ⟨rfl, rfl⟩ := Prod.mk.inj heq
      rw [List.infix_cons_iff, not_or]
      refine ⟨?_, ih hparts⟩
      intro hstart
      have hfront : c :: parts.1 <+: c :: cs := ⟨pattern ++ parts.2, by rw [eq_of_cut hparts]; simp⟩
      exact hp (List.isPrefixOf_iff_prefix.mpr (hstart.trans hfront))

theorem cut_singleton_eq_none_iff : cut [c] cs = none ↔ c ∉ cs := by
  rw [cut_eq_none_iff, List.singleton_infix_iff]

theorem not_mem_of_cut_singleton (h : cut [c] cs = some (front, back)) : c ∉ front := by
  induction cs generalizing front with
  | nil => exact absurd h (by simp [cut_nil])
  | cons d cs ih =>
    rw [cut_cons] at h
    split_ifs at h with hp
    · obtain ⟨rfl, _⟩ := Prod.mk.inj (Option.some.inj h)
      exact List.not_mem_nil
    · obtain ⟨parts, hparts, heq⟩ := Option.map_eq_some_iff.mp h
      obtain ⟨rfl, rfl⟩ := Prod.mk.inj heq
      have hne : c ≠ d := by simpa [List.isPrefixOf] using hp
      exact List.not_mem_cons_of_ne_of_not_mem hne (ih hparts)

/-- in front of the first place where a pattern may start -/
theorem cut_append_of_not_mem (h : c ∉ front) :
    cut (c :: pattern) (front ++ back) = (cut (c :: pattern) back).map fun parts => (front ++ parts.1, parts.2) := by
  induction front with
  | nil => simp
  | cons d front ih =>
    obtain ⟨hne, hfront⟩ := not_or.mp (List.mem_cons.not.mp h)
    have hp : ¬ ((c :: pattern).isPrefixOf (d :: (front ++ back))) := by simp [List.isPrefixOf, hne]
    rw [List.cons_append, cut_cons, if_neg hp, ih hfront, Option.map_map]
    rfl

/-- the first place where a pattern may start is one where it stands -/
theorem cut_eq_of_not_mem (h : c ∉ front) (back : List Char) :
    cut (c :: pattern) (front ++ (c :: pattern) ++ back) = some (front, back) := by
  have hprefix : (c :: pattern).isPrefixOf (c :: (pattern ++ back)) = true :=
    List.isPrefixOf_iff_prefix.mpr (List.prefix_append (c :: pattern) back)
  have hback : cut (c :: pattern) ((c :: pattern) ++ back) = some ([], back) := by
    rw [List.cons_append, cut_cons, if_pos hprefix, ← List.cons_append, List.drop_left]
  rw [List.append_assoc, cut_append_of_not_mem h, hback, Option.map_some, List.append_nil]

theorem cut_singleton (h : c ∉ front) (back : List Char) : cut [c] (front ++ c :: back) = some (front, back) := by
  rw [cut_append_of_not_mem h]
  simp [cut_cons]

/-- behind the first place where a character occurs -/
theorem cut_append_of_mem (h : c ∈ front) :
    cut [c] (front ++ back) = (cut [c] front).map fun parts => (parts.1, parts.2 ++ back) := by
  induction front with
  | nil => exact absurd h List.not_mem_nil
  | cons d front ih =>
    rw [List.cons_append, cut_cons, cut_cons]
    by_cases hp : [c].isPrefixOf (d :: front)
    · have hp' : [c].isPrefixOf (d :: (front ++ back)) := by simpa [List.isPrefixOf] using hp
      rw [if_pos hp, if_pos hp']
      rfl
    · have hp' : ¬ [c].isPrefixOf (d :: (front ++ back)) := by simpa [List.isPrefixOf] using hp
      have hne : c ≠ d := by simpa [List.isPrefixOf] using hp
      rw [if_neg hp, if_neg hp', ih (List.mem_of_ne_of_mem hne h), Option.map_map, Option.map_map]
      rfl

/-! ## Two characters -/

section
variable {x y : Char} {a b front back : List Char}

/-- a pattern of two characters is in one of two texts, or starts in the first and ends in the second -/
theorem pair_append_iff : [x, y] <:+: a ++ b ↔
    [x, y] <:+: a ∨ [x, y] <:+: b ∨ a.getLast? = some x ∧ b.head? = some y := by
  induction a with
  | nil => simp
  | cons c a ih =>
    rw [List.cons_append, List.infix_cons_iff, List.infix_cons_iff, ih]
    cases a with
    | nil =>
      cases b with
      | nil => simp
      | cons d b =>
        have hacross : [x, y] <+: c :: d :: b ↔ c = x ∧ d = y := by simp [List.cons_prefix_cons, eq_comm]
        simp [List.cons_prefix_cons, hacross, or_comm]
    | cons d a => simp [List.cons_prefix_cons, or_assoc]

/-- the first place of a pattern of two different characters is one where it stands, if it is not before -/
theorem cut_pair (hxy : x ≠ y) (h : ¬ [x, y] <:+: front) :
    cut [x, y] (front ++ x :: y :: back) = some (front, back) := by
  induction front with
  | nil => simp [cut_cons, List.isPrefixOf]
  | cons c front ih =>
    rw [List.infix_cons_iff, not_or] at h
    have hp : ¬ [x, y].isPrefixOf (c :: (front ++ x :: y :: back)) := by
      intro hp
      rw [List.isPrefixOf_iff_prefix] at hp
      cases front with
      | nil =>
        have hyx : x = c ∧ y = x := by simpa [List.cons_prefix_cons] using hp
        exact hxy hyx.2.symm
      | cons d front => exact h.1 (by simpa [List.cons_prefix_cons] using hp)
    rw [List.cons_append, cut_cons, if_neg hp, ih h.2]
    rfl

end

/-! ## Pieces of a text -/

/-- `str::split` by a pattern that is not empty, with `k` cuts at most -/
def piecesUpTo (pattern : List Char) : (k : ℕ) → List Char → List (List Char)
  | 0, cs => [cs]
  | k + 1, cs =>
    match cut pattern cs with
    | none => [cs]
    | some (front, back) => front :: piecesUpTo pattern k back

/-- `str::split` by a pattern that is not empty: there are no more cuts than characters -/
def pieces (pattern cs : List Char) : List (List Char) := piecesUpTo pattern cs.length cs

theorem length_of_cut (hne : pattern ≠ []) (h : cut pattern cs = some (front, back)) :
    front.length < cs.length ∧ back.length < cs.length := by
  have hlen := congrArg List.length (eq_of_cut h)
  have hpos := List.length_pos_iff.mpr hne
  rw [List.length_append, List.length_append] at hlen
  omega

theorem piecesUpTo_eq (hne : pattern ≠ []) {k : ℕ} (hk : cs.length ≤ k) :
    piecesUpTo pattern k cs = pieces pattern cs := by
  suffices h : ∀ k', cs.length ≤ k' → piecesUpTo pattern k cs = piecesUpTo pattern k' cs from
    h cs.length (Nat.le_refl _)
  induction k generalizing cs with
  | zero =>
    intro k' _
    obtain rfl := List.length_eq_zero_iff.mp (Nat.le_zero.mp hk)
    cases k' with
    | zero => rfl
    | succ k' =>
      rw [piecesUpTo, piecesUpTo, cut_nil, if_neg hne]
  | succ k ih =>
    intro k' hk'
    cases hcut : cut pattern cs with
    | none => cases k' <;> simp only [piecesUpTo, hcut]
    | some parts =>
      obtain ⟨front, back⟩ := parts
      have hback := (length_of_cut hne hcut).2
      cases k' with
      | zero => exact absurd hback (by omega)
      | succ k' =>
        simp only [piecesUpTo, hcut]
        rw [ih (by omega) k' (by omega)]

theorem pieces_of_cut (hne : pattern ≠ []) (h : cut pattern cs = some (front, back)) :
    pieces pattern cs = front :: pieces pattern back := by
  obtain ⟨k, hk⟩ : ∃ k, cs.length = k + 1 := Nat.exists_eq_add_one.mpr (by have := length_of_cut hne h; omega)
  have hback := (length_of_cut hne h).2
  rw [pieces, hk, piecesUpTo, h]
  exact congrArg (front :: ·) (piecesUpTo_eq hne (by omega))

theorem pieces_of_not_infix (h : ¬ pattern <:+: cs) : pieces pattern cs = [cs] := by
  unfold pieces
  cases hlen : cs.length with
  | zero => rfl
  | succ k => rw [piecesUpTo, cut_eq_none_iff.2 h]

/-- the first piece is the whole text where there is nothing to cut at, and only there -/
theorem exists_pieces (hne : pattern ≠ []) (cs : List Char) :
    ∃ first rest, pieces pattern cs = first :: rest ∧ (first = cs ↔ ¬ pattern <:+: cs) := by
  cases hcut : cut pattern cs with
  | none =>
    have hfree := cut_eq_none_iff.1 hcut
    exact ⟨cs, [], pieces_of_not_infix hfree, ⟨fun _ => hfree, fun _ => rfl⟩⟩
  | some parts =>
    obtain ⟨front, back⟩ := parts
    refine ⟨front, pieces pattern back, pieces_of_cut hne hcut, ?_, ?_⟩
    · rintro rfl
      exact absurd (length_of_cut hne hcut).1 (Nat.lt_irrefl _)
    · intro hfree
      rw [cut_eq_none_iff.2 hfree] at hcut
      exact absurd hcut (by simp)

end BigWorlds.Core
