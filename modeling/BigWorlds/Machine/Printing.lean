/-
Formatted print (`machine/cmd/print.rs` `PrintFmt`).

Placeholders are taken out of the format one by one, each looked for from the start of what is left, and their places in
it are recorded; values are inserted there with the bytes that have been added. Where braces close around a placeholder,
taking it out makes another one. And a format is first read as an address.

- `template_eq`, `insertAll_marks`: the two loops, for a format where no placeholder is made;
- `prints_iff`: with every value, the format is printed with its placeholders replaced, exactly if it is such a format,
  has not four parts, and the arguments for its placeholders are read.
-/
import BigWorlds.Machine.Construction
import BigWorlds.Machine.Safety

namespace BigWorlds.Machine

open BigWorlds.Core (split cut utf8Length insertStr insertStr_eq_some_iff)

variable (L : Libraries)

/-! ## Placeholders -/

/-- a pair of braces -/
def braces : List Char := ['{', '}']

/-- a format with texts for its placeholders, the first of which has number `i` -/
def replaced (texts : ℕ → List Char) : (i : ℕ) → List Char → List Char
  | i, '{' :: '}' :: fmt => texts i ++ replaced texts (i + 1) fmt
  | i, c :: fmt => c :: replaced texts i fmt
  | _, [] => []

/-- a format without its placeholders -/
def stripped (fmt : List Char) : List Char := replaced (fun _ => []) 0 fmt

/-- the number of placeholders -/
def holes : List Char → ℕ
  | '{' :: '}' :: fmt => holes fmt + 1
  | _ :: fmt => holes fmt
  | [] => 0

/-- the address that an argument is read as -/
def addressAt (free : List String) (i : ℕ) : Option Address := free[i]?.bind fun s => (Address.fromStr s).toOption

/-- where the values go, in the format without its placeholders, from a byte on -/
def marks (free : List String) : (offset i : ℕ) → List Char → List (ℕ × Address)
  | offset, i, '{' :: '}' :: fmt => (addressAt free i).toList.map (offset, ·) ++ marks free offset (i + 1) fmt
  | offset, i, c :: fmt => marks free (offset + c.utf8Size) i fmt
  | _, _, [] => []

section
variable {texts : ℕ → List Char} {free : List String} {i offset : ℕ} {c : Char} {fmt front back cs : List Char}

theorem replaced_braces : replaced texts i (braces ++ fmt) = texts i ++ replaced texts (i + 1) fmt := rfl

theorem marks_braces :
    marks free offset i (braces ++ fmt) = (addressAt free i).toList.map (offset, ·) ++ marks free offset (i + 1) fmt :=
  rfl

/-- no placeholder starts at this character -/
def Plain (c : Char) (fmt : List Char) : Prop := ∀ rest, c = '{' → fmt = '}' :: rest → False

theorem replaced_plain (h : Plain c fmt) : replaced texts i (c :: fmt) = c :: replaced texts i fmt := by
  rw [replaced]
  exact h

theorem holes_plain (h : Plain c fmt) : holes (c :: fmt) = holes fmt := by
  rw [holes]
  exact h

theorem marks_plain (h : Plain c fmt) :
    marks free offset i (c :: fmt) = marks free (offset + c.utf8Size) i fmt := by
  rw [marks]
  exact h

/-- what stands in front of the first placeholder -/
theorem plain_of_free (h : ¬ braces <:+: c :: front) (back : List Char) : Plain c (front ++ braces ++ back) := by
  rintro rest rfl heq
  cases front with
  | nil => exact absurd (List.cons.inj heq).1 (by decide)
  | cons d front =>
    obtain ⟨rfl, _⟩ := List.cons.inj heq
    exact h ⟨[], front, rfl⟩

theorem free_of_cons (h : ¬ braces <:+: c :: front) : ¬ braces <:+: front :=
  fun hfront => h (List.infix_cons hfront)

/-- a format up to its first placeholder -/
theorem replaced_first (h : ¬ braces <:+: front) (back : List Char) :
    replaced texts i (front ++ braces ++ back) = front ++ texts i ++ replaced texts (i + 1) back := by
  induction front with
  | nil => rfl
  | cons c front ih =>
    rw [List.cons_append, List.cons_append, replaced_plain (plain_of_free h back), ih (free_of_cons h)]
    rfl

theorem holes_first (h : ¬ braces <:+: front) (back : List Char) :
    holes (front ++ braces ++ back) = holes back + 1 := by
  induction front with
  | nil => rfl
  | cons c front ih =>
    rw [List.cons_append, List.cons_append, holes_plain (plain_of_free h back)]
    exact ih (free_of_cons h)

theorem marks_first (h : ¬ braces <:+: front) (back : List Char) : marks free offset i (front ++ braces ++ back) =
    (addressAt free i).toList.map (offset + utf8Length front, ·) ++
      marks free (offset + utf8Length front) (i + 1) back := by
  induction front generalizing offset with
  | nil => rfl
  | cons c front ih =>
    rw [List.cons_append, List.cons_append, marks_plain (plain_of_free h back), ih (free_of_cons h),
      Core.utf8Length_cons, Nat.add_assoc]

/-- where nothing is put into a format, the numbers of its placeholders make no difference -/
theorem replaced_nothing (i j : ℕ) (fmt : List Char) :
    replaced (fun _ => []) i fmt = replaced (fun _ => []) j fmt := by
  induction i, fmt using replaced.induct generalizing j with
  | case1 i fmt ih => exact ih (j + 1)
  | case2 i c fmt hplain ih => rw [replaced_plain hplain, replaced_plain hplain, ih j]
  | case3 i => rfl

/-- a format without placeholders -/
theorem replaced_free (h : ¬ braces <:+: fmt) :
    replaced texts i fmt = fmt ∧ holes fmt = 0 ∧ marks free offset i fmt = [] := by
  induction fmt generalizing offset with
  | nil => exact ⟨rfl, rfl, rfl⟩
  | cons c fmt ih =>
    have hplain : Plain c fmt := by
      rintro rest rfl rfl
      exact h ⟨[], rest, rfl⟩
    obtain ⟨hreplaced, hholes, hmarks⟩ := @ih (offset + c.utf8Size) (free_of_cons h)
    exact ⟨by rw [replaced_plain hplain, hreplaced], by rw [holes_plain hplain, hholes],
      by rw [marks_plain hplain, hmarks]⟩

theorem cut_first (h : ¬ braces <:+: front) (back : List Char) :
    cut braces (front ++ braces ++ back) = some (front, back) := by
  induction front with
  | nil => rfl
  | cons c front ih =>
    have hprefix : ¬ braces.isPrefixOf (c :: (front ++ braces ++ back)) = true := by
      intro hp
      obtain ⟨rest, hrest⟩ := List.isPrefixOf_iff_prefix.mp hp
      obtain ⟨rfl, htail⟩ := List.cons.inj hrest
      exact plain_of_free h back rest rfl htail.symm
    rw [List.cons_append, List.cons_append, cut, if_neg hprefix, ih (free_of_cons h)]
    rfl

/-- the first placeholder is in front of what is cut off -/
theorem free_of_cut (h : cut braces cs = some (front, back)) : ¬ braces <:+: front := by
  induction cs generalizing front with
  | nil => exact absurd h (by simp [cut, braces])
  | cons c cs ih =>
    rw [cut] at h
    split_ifs at h with hp
    · obtain ⟨rfl, _⟩ := Prod.mk.inj (Option.some.inj h)
      intro hinside
      exact absurd (List.infix_nil.mp hinside) (by simp [braces])
    · obtain ⟨parts, hparts, heq⟩ := Option.map_eq_some_iff.mp h
      obtain ⟨rfl, rfl⟩ := Prod.mk.inj heq
      intro hinside
      rcases List.infix_cons_iff.mp hinside with hprefix | hinside
      · have hcs := Core.eq_of_cut hparts
        obtain ⟨rest, hrest⟩ := hprefix
        refine hp (List.isPrefixOf_iff_prefix.mpr ⟨rest ++ braces ++ parts.2, ?_⟩)
        rw [hcs, ← List.append_assoc, ← List.append_assoc, hrest]
        simp
      · exact ih hparts hinside

end

/-! ## The two loops -/

section
variable {free : List String} {done rest before after : List Char}

theorem stripped_of_cut (h : cut braces rest = some (before, after)) : stripped rest = before ++ stripped after := by
  rw [Core.eq_of_cut h, stripped, replaced_first (free_of_cut h), List.append_nil]
  exact congrArg (before ++ ·) (replaced_nothing 1 0 after)

theorem holes_of_cut (h : cut braces rest = some (before, after)) : holes rest = holes after + 1 := by
  rw [Core.eq_of_cut h, holes_first (free_of_cut h)]

theorem length_of_cut (h : cut braces rest = some (before, after)) : after.length < rest.length := by
  rw [Core.eq_of_cut h, List.length_append, List.length_append]
  show after.length < before.length + 2 + after.length
  omega

/-- what is in front of the next placeholder stays, so it is the first one -/
theorem cut_next (h : ¬ braces <:+: done ++ stripped rest) (hcut : cut braces rest = some (before, after)) :
    cut braces (done ++ rest) = some (done ++ before, after) ∧ ¬ braces <:+: done ++ before ++ stripped after := by
  rw [stripped_of_cut hcut, ← List.append_assoc] at h
  have hdone : ¬ braces <:+: done ++ before := fun hinside => h (hinside.trans (List.infix_append [] _ _))
  refine ⟨?_, h⟩
  rw [Core.eq_of_cut hcut, ← List.append_assoc, ← List.append_assoc]
  exact cut_first hdone after

/-- a rest without placeholders -/
theorem cut_last (h : ¬ braces <:+: done ++ stripped rest) (hcut : cut braces rest = none) :
    cut braces (done ++ rest) = none ∧ stripped rest = rest ∧ holes rest = 0 ∧
      ∀ free offset i, marks free offset i rest = [] := by
  have hfree : ¬ braces <:+: rest := Core.cut_eq_none_iff.mp hcut
  have hstripped : stripped rest = rest := (@replaced_free (fun _ => []) [] 0 0 rest hfree).1
  rw [hstripped] at h
  exact ⟨Core.cut_eq_none_iff.mpr h, hstripped, (@replaced_free (fun _ => []) [] 0 0 rest hfree).2.1,
    fun free offset i => (@replaced_free (fun _ => []) free i offset rest hfree).2.2⟩

/-- **Taking out placeholders.** Where no placeholder is made when all are taken out, the format is left without them,
and their places are recorded. -/
theorem template_eq {k count : ℕ} {done rest : List Char} {inserts : List (ℕ × Address)}
    (h : ¬ braces <:+: done ++ stripped rest) (hk : rest.length ≤ k)
    (hread : ∀ j < holes rest, ∀ s, free[count + j]? = some s → AddressTotal s) :
    PrintFmt.template free k (done ++ rest) count inserts =
      some ⟨String.ofList (done ++ stripped rest), inserts ++ marks free (utf8Length done) count rest⟩ := by
  induction k generalizing count done rest inserts with
  | zero =>
    obtain rfl := List.eq_nil_of_length_eq_zero (Nat.le_zero.mp hk)
    simp [PrintFmt.template, stripped, replaced, marks]
  | succ k ih =>
    rw [PrintFmt.template]
    cases hcut : cut braces rest with
    | none =>
      obtain ⟨hend, hstripped, _, hmarks⟩ := cut_last h hcut
      rw [show cut ['{', '}'] (done ++ rest) = none from hend, hmarks, hstripped, List.append_nil]
    | some parts =>
      obtain ⟨before, after⟩ := parts
      obtain ⟨hfirst, hnone⟩ := cut_next h hcut
      have hlength := length_of_cut hcut
      have hholes := holes_of_cut hcut
      have hrest : ∀ j < holes after, ∀ s, free[count + 1 + j]? = some s → AddressTotal s := by
        intro j hj
        rw [show count + 1 + j = count + (j + 1) by omega]
        exact hread (j + 1) (by omega)
      have hmarks : marks free (utf8Length done) count rest = (addressAt free count).toList.map
          (utf8Length (done ++ before), ·) ++ marks free (utf8Length (done ++ before)) (count + 1) after := by
        rw [Core.eq_of_cut hcut, marks_first (free_of_cut hcut), Core.utf8Length_append]
      have hdone : done ++ stripped rest = done ++ before ++ stripped after := by
        rw [stripped_of_cut hcut, List.append_assoc]
      rw [show cut ['{', '}'] (done ++ rest) = some (done ++ before, after) from hfirst, hmarks, hdone]
      have hnext := fun inserts => @ih (count + 1) (done ++ before) after inserts hnone (by omega) hrest
      rw [addressAt]
      cases hs : free[count]? with
      | none => exact hnext inserts
      | some s =>
        have htotal : Address.fromStr s ≠ .error .panic := (addressTotal_iff s).mpr (hread 0 (by omega) s hs)
        cases haddr : Address.fromStr s with
        | ok addr =>
          dsimp only [Option.map_some, Option.bind_some]
          rw [haddr]
          refine (hnext _).trans ?_
          simp [Except.toOption]
        | error e =>
          dsimp only [Option.map_some, Option.bind_some]
          rw [haddr]
          cases e with
          | panic => exact absurd haddr htotal
          | invalidLocalAddress text => exact hnext inserts
          | failedCreatingAddress text => exact hnext inserts

end

/-! ## Values -/

/-- what a request for the variable at an address comes back with, which is read or not -/
def answerOf (values : Address → Option Var) (addr : Address) : Answer :=
  match values addr with
  | some v => .var v
  | none => .refused

/-- the answers to the requests for the inserts -/
def readings (values : Address → Option Var) (inserts : List (ℕ × Address)) : Answers :=
  fun n => (inserts[n]?.map fun insert => answerOf values insert.2).getD .refused

/-- the text that `execute` prints; none panics -/
def PrintFmt.printed (values : Address → Option Var) (cmd : PrintFmt) : Option (List Char) :=
  insertAll L (readings values cmd.inserts) cmd.inserts 0 0 cmd.fmt.toList

/-- the value at an argument as text, none if the argument is missing, not read, or its variable is not read -/
def textAt (values : Address → Option Var) (free : List String) (i : ℕ) : List Char :=
  (((addressAt free i).bind values).map fun v => (v.toString L.format).toList).getD []

section
variable {L} {values : Address → Option Var} {free : List String} {ans : Answers}

/-- **Inserting values.** With the bytes that have been added, each value goes to the place of its placeholder. -/
theorem insertAll_marks {rest shown : List Char} {offset added n i : ℕ} (hadded : offset + added = utf8Length shown)
    (hans : ∀ (j : ℕ) insert, (marks free offset i rest)[j]? = some insert → ans (n + j) = answerOf values insert.2) :
    PrintFmt.insertAll L ans (marks free offset i rest) n added (shown ++ stripped rest) =
      some (shown ++ replaced (textAt L values free) i rest) := by
  induction i, rest using replaced.induct generalizing shown offset added n with
  | case1 i rest ih =>
    rw [show '{' :: '}' :: rest = braces ++ rest from rfl] at hans ⊢
    have hstripped : stripped (braces ++ rest) = stripped rest := replaced_nothing 1 0 rest
    rw [marks_braces] at hans ⊢
    have htext : textAt L values free i =
        (((addressAt free i).bind values).map fun v => (v.toString L.format).toList).getD [] := rfl
    rw [hstripped, replaced_braces, htext]
    cases haddr : addressAt free i with
    | none =>
      rw [haddr] at hans
      exact ih hadded hans
    | some addr =>
      rw [haddr] at hans
      have hfirst : ans n = answerOf values addr := hans 0 (offset, addr) rfl
      have hrest : ∀ (j : ℕ) insert, (marks free offset (i + 1) rest)[j]? = some insert →
          ans (n + 1 + j) = answerOf values insert.2 := by
        intro j insert hj
        rw [show n + 1 + j = n + (j + 1) by omega]
        exact hans (j + 1) insert hj
      show PrintFmt.insertAll L ans ((offset, addr) :: marks free offset (i + 1) rest) n added _ = _
      rw [PrintFmt.insertAll, hfirst, answerOf]
      cases hvalue : values addr with
      | none =>
        have hnext := @ih shown offset added (n + 1) hadded hrest
        simpa [Answer.getVar, hvalue] using hnext
      | some v =>
        have hinsert : insertStr (shown ++ stripped rest) (offset + added) (v.toString L.format).toList =
            some (shown ++ (v.toString L.format).toList ++ stripped rest) :=
          insertStr_eq_some_iff.mpr ⟨shown, stripped rest, rfl, hadded.symm, rfl⟩
        have hnext := @ih (shown ++ (v.toString L.format).toList) offset
          (added + utf8Length (v.toString L.format).toList) (n + 1)
          (by rw [Core.utf8Length_append, ← hadded, Nat.add_assoc]) hrest
        simpa [Answer.getVar, hvalue, hinsert] using hnext
  | case2 i c rest hplain ih =>
    have hstripped : stripped (c :: rest) = c :: stripped rest := replaced_plain hplain
    rw [marks_plain hplain] at hans ⊢
    have hnext := @ih (shown ++ [c]) (offset + c.utf8Size) added n (by
      rw [Core.utf8Length_append, ← hadded]
      show _ = offset + added + (c.utf8Size + 0)
      omega) hans
    rw [hstripped, replaced_plain hplain]
    simpa using hnext
  | case3 i => simp [marks, PrintFmt.insertAll, stripped, replaced]

/-- what is printed of a format without its placeholders and their places -/
theorem printed_eq (fmt : List Char) :
    PrintFmt.printed L values ⟨String.ofList (stripped fmt), marks free 0 1 fmt⟩ =
      some (replaced (textAt L values free) 1 fmt) := by
  have hprinted := @insertAll_marks L values free (readings values (marks free 0 1 fmt)) fmt [] 0 0 0 1 rfl
    fun j insert hj => by rw [Nat.zero_add, readings, hj]; rfl
  rw [PrintFmt.printed, String.toList_ofList]
  exact hprinted

/-- nothing is read -/
theorem insertAll_none {inserts : List (ℕ × Address)} {n added : ℕ} {output : List Char}
    (hans : ∀ j insert, inserts[j]? = some insert → ans (n + j) = .refused) :
    PrintFmt.insertAll L ans inserts n added output = some output := by
  induction inserts generalizing n with
  | nil => rfl
  | cons insert inserts ih =>
    have hfirst : ans n = .refused := hans 0 insert rfl
    have hnext := @ih (n + 1) fun j insert' hj => by
      rw [show n + 1 + j = n + (j + 1) by omega]
      exact hans (j + 1) insert' hj
    rw [PrintFmt.insertAll, hfirst]
    simpa [Answer.getVar] using hnext

theorem printed_none (cmd : PrintFmt) : cmd.printed L (fun _ => none) = some cmd.fmt.toList := by
  refine insertAll_none fun j insert hj => ?_
  rw [Nat.zero_add, readings, hj]
  rfl

end

/-! ## Formats -/

section
variable {free : List String} {fmt : List Char}

/-- placeholders that are taken out are all there are, where none is made -/
theorem placeholders_eq {k : ℕ} {done rest : List Char} (h : ¬ braces <:+: done ++ stripped rest)
    (hk : rest.length ≤ k) : PrintFmt.placeholders k (done ++ rest) = holes rest := by
  induction k generalizing done rest with
  | zero =>
    obtain rfl := List.eq_nil_of_length_eq_zero (Nat.le_zero.mp hk)
    rfl
  | succ k ih =>
    rw [PrintFmt.placeholders]
    cases hcut : cut braces rest with
    | none =>
      obtain ⟨hend, _, hholes, _⟩ := cut_last h hcut
      rw [show cut ['{', '}'] (done ++ rest) = none from hend, hholes]
    | some parts =>
      obtain ⟨before, after⟩ := parts
      obtain ⟨hfirst, hnone⟩ := cut_next h hcut
      have hlength := length_of_cut hcut
      rw [show cut ['{', '}'] (done ++ rest) = some (done ++ before, after) from hfirst, holes_of_cut hcut]
      exact congrArg (· + 1) (ih hnone (by omega))

/-- in the end no placeholder is left -/
theorem template_free {k count : ℕ} {inserts : List (ℕ × Address)} {cmd : PrintFmt}
    (h : PrintFmt.template free k fmt count inserts = some cmd) (hk : fmt.length ≤ k) :
    ¬ braces <:+: cmd.fmt.toList := by
  induction k generalizing fmt count inserts with
  | zero =>
    obtain rfl := List.eq_nil_of_length_eq_zero (Nat.le_zero.mp hk)
    obtain rfl := Option.some.inj h
    intro hinside
    exact absurd (List.infix_nil.mp hinside) (by simp [braces])
  | succ k ih =>
    rw [PrintFmt.template] at h
    cases hcut : cut ['{', '}'] fmt with
    | none =>
      rw [hcut] at h
      obtain rfl := Option.some.inj h
      rw [String.toList_ofList]
      exact Core.cut_eq_none_iff.mp hcut
    | some parts =>
      obtain ⟨before, after⟩ := parts
      obtain rfl := Core.eq_of_cut hcut
      have hlength : (before ++ after).length ≤ k := by
        simp only [List.length_append, List.length_cons, List.length_nil] at hk ⊢
        omega
      rw [hcut] at h
      dsimp only at h
      split at h
      · exact absurd h (by simp)
      · exact ih h hlength
      · exact ih h hlength

theorem mem_replaced {texts : ℕ → List Char} {i : ℕ} {c : Char} (hopen : c ≠ '{') (hclose : c ≠ '}') (h : c ∈ fmt) :
    c ∈ replaced texts i fmt := by
  induction i, fmt using replaced.induct with
  | case1 i fmt ih =>
    have hrest : c ∈ fmt := by simpa [hopen, hclose] using h
    exact List.mem_append_right _ (ih hrest)
  | case2 i d fmt hplain ih =>
    rw [replaced_plain hplain]
    rcases List.mem_cons.mp h with rfl | h
    · exact List.mem_cons_self
    · exact List.mem_cons_of_mem d (ih h)
  | case3 i => exact absurd h List.not_mem_nil

theorem fromStr_of_length {s : String} (h : (split '.' s).length ≠ 4) :
    Address.fromStr s = .error (.failedCreatingAddress s) := by
  unfold Address.fromStr
  split
  · rename_i hsplit
    exact absurd (by rw [hsplit]; rfl) h
  · rfl

/-- a text of four parts is an address, or panics -/
theorem fromStr_of_four {s : String} (h : (split '.' s).length = 4) :
    (∃ addr, Address.fromStr s = .ok addr) ∨ Address.fromStr s = .error .panic := by
  obtain ⟨a, b, c, d, hsplit⟩ := List.length_eq_four.mp h
  rw [Address.fromStr, hsplit]
  by_cases htype : ∃ t, VarType.fromStr c = some t
  · obtain ⟨t, ht⟩ := htype
    exact Or.inl ⟨⟨a, b, t, d⟩, bind_read_eq_ok.mpr ⟨t, ht, rfl⟩⟩
  · exact Or.inr (not_not.mp fun hne => htype (read_ne_panic_iff.mp hne))

end

/-! ## Printing -/

/-- the format is printed with its placeholders replaced by the values at the arguments behind it -/
def Formatted (args : List String) (values : Address → Option Var) : Prop :=
  ∃ matched fmt addrs cmd, L.getopts [] args = .ok matched ∧ matched.free = fmt :: addrs ∧
    PrintFmt.fromArgs L args = .ok cmd ∧
    cmd.printed L values = some (replaced (textAt L values (fmt :: addrs)) 1 fmt.toList)

/-- the condition on a format and the arguments behind it -/
structure FormatGood (fmt : String) (addrs : List String) : Prop where
  /-- it is not read as an address -/
  notFour : (split '.' fmt).length ≠ 4
  /-- taking its placeholders out makes no other -/
  free : ¬ braces <:+: stripped fmt.toList
  /-- the arguments for its placeholders are read without a panic -/
  read : ∀ i < holes fmt.toList, ∀ s, addrs[i]? = some s → AddressTotal s

section
variable {L} {args : List String} {matched : Matches} {fmt : String} {addrs : List String}

/-- making the command, from arguments that are all free -/
theorem fromArgs_eq (h : L.getopts [] args = .ok matched) (hfree : matched.free = fmt :: addrs) :
    PrintFmt.fromArgs L args =
      match Address.fromStr fmt with
      | .ok addr => .ok ⟨"", [(0, addr)]⟩
      | .error .panic => .error .panic
      | .error _ => unwrap (PrintFmt.template (fmt :: addrs) fmt.length fmt.toList 1 []) := by
  have hparse : L.parse [] args = .ok matched := by
    rw [Libraries.parse, Libraries.parseAt, h]
  unfold PrintFmt.fromArgs
  rw [hparse]
  simp only [bind, Except.bind, hfree, List.getElem?_cons_zero, unwrap_some]
  rfl

theorem formatGood_of_formatted (h : L.getopts [] args = .ok matched) (hfree : matched.free = fmt :: addrs)
    {cmd : PrintFmt} (hcmd : PrintFmt.fromArgs L args = .ok cmd)
    (hprinted : cmd.printed L (fun _ => none) =
      some (replaced (textAt L (fun _ => none) (fmt :: addrs)) 1 fmt.toList)) :
    FormatGood fmt addrs := by
  have htexts : textAt L (fun _ => none) (fmt :: addrs) = fun _ => [] := by
    funext i
    unfold textAt
    cases addressAt (fmt :: addrs) i <;> rfl
  rw [printed_none, htexts, Option.some.injEq] at hprinted
  have hleft : cmd.fmt.toList = stripped fmt.toList := hprinted.trans (replaced_nothing 1 0 _)
  rw [fromArgs_eq h hfree] at hcmd
  cases haddr : Address.fromStr fmt with
  | ok addr =>
    rw [haddr] at hcmd
    obtain rfl := Except.ok.inj hcmd
    -- the dots of an address are left in the format
    have hdot : '.' ∈ fmt.toList := by
      by_contra hno
      have hsplit : split '.' fmt = [fmt] := by
        rw [split, List.splitOn_eq_singleton hno]
        simp
      rw [Address.fromStr, hsplit] at haddr
      exact absurd haddr (by simp)
    have hmem : '.' ∈ stripped fmt.toList := mem_replaced (by decide) (by decide) hdot
    rw [← hleft] at hmem
    exact absurd hmem (by simp)
  | error e =>
    rw [haddr] at hcmd
    have htemplate : e ≠ .panic ∧ PrintFmt.template (fmt :: addrs) fmt.length fmt.toList 1 [] = some cmd := by
      cases e with
      | panic => exact absurd hcmd (by simp)
      | invalidLocalAddress text => exact ⟨by simp, unwrap_eq_ok.mp hcmd⟩
      | failedCreatingAddress text => exact ⟨by simp, unwrap_eq_ok.mp hcmd⟩
    have hlength : fmt.toList.length ≤ fmt.length := Nat.le_of_eq String.length_toList
    have hnone := template_free htemplate.2 hlength
    rw [hleft] at hnone
    refine ⟨fun hfour => ?_, hnone, fun i hi s hs => ?_⟩
    · rcases fromStr_of_four hfour with ⟨addr, hok⟩ | hpanic
      · exact absurd (haddr.symm.trans hok) (by simp)
      · exact htemplate.1 (Except.error.inj (haddr.symm.trans hpanic))
    · have hread := (PrintFmt.template_total_iff (fmt :: addrs) fmt.length 1 fmt.toList []).mp ⟨cmd, htemplate.2⟩
      have hholes : PrintFmt.placeholders fmt.length fmt.toList = holes fmt.toList :=
        @placeholders_eq fmt.length [] fmt.toList hnone hlength
      rw [hholes] at hread
      refine hread i hi s ?_
      rw [Nat.add_comm, List.getElem?_cons_succ, hs]

theorem formatted_of_formatGood (h : L.getopts [] args = .ok matched) (hfree : matched.free = fmt :: addrs)
    (hgood : FormatGood fmt addrs) (values : Address → Option Var) : Formatted L args values := by
  have hread : ∀ j < holes fmt.toList, ∀ s, (fmt :: addrs)[1 + j]? = some s → AddressTotal s := by
    intro j hj s hs
    rw [Nat.add_comm, List.getElem?_cons_succ] at hs
    exact hgood.read j hj s hs
  have htemplate := @template_eq (fmt :: addrs) fmt.length 1 [] fmt.toList [] hgood.free
    (Nat.le_of_eq String.length_toList) hread
  refine ⟨matched, fmt, addrs, _, h, hfree, ?_, printed_eq fmt.toList⟩
  rw [fromArgs_eq h hfree, fromStr_of_length hgood.notFour]
  exact unwrap_eq_ok.mpr htemplate

/-- **Formatted print.** Whatever the values are, the format is printed with its placeholders replaced exactly if it has
not four parts, taking its placeholders out makes no other, and the arguments for them are read without a panic. -/
theorem prints_iff (args : List String) : (∀ values, Formatted L args values) ↔
    ∃ matched fmt addrs, L.getopts [] args = .ok matched ∧ matched.free = fmt :: addrs ∧ FormatGood fmt addrs := by
  constructor
  · intro h
    obtain ⟨matched, fmt, addrs, cmd, hmatched, hfree, hcmd, hprinted⟩ := h fun _ => none
    exact ⟨matched, fmt, addrs, hmatched, hfree, formatGood_of_formatted hmatched hfree hcmd hprinted⟩
  · intro ⟨matched, fmt, addrs, hmatched, hfree, hgood⟩ values
    exact formatted_of_formatGood hmatched hfree hgood values

end

/-- the value is inserted behind the end of what is left of the format, and that panics -/
theorem braces_panic : ¬ ∀ args values, Formatted bareLibraries args values := by
  intro h
  obtain ⟨_, _, _, cmd, _, _, hcmd, hprinted⟩ := h ["{{}}", "gate.door.bool.open"] fun _ => some (.bool true)
  have hmade : PrintFmt.fromArgs bareLibraries ["{{}}", "gate.door.bool.open"] =
      .ok ⟨"", [(1, ⟨"gate", "door", .bool, "open"⟩)]⟩ := by decide
  obtain rfl := Except.ok.inj (hmade.symm.trans hcmd)
  have hpanic : PrintFmt.printed bareLibraries (fun _ => some (.bool true))
      ⟨"", [(1, ⟨"gate", "door", .bool, "open"⟩)]⟩ = none := by decide
  rw [hpanic] at hprinted
  exact absurd hprinted (by simp)

end BigWorlds.Machine
