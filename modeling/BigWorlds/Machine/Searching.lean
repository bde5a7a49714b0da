/-
`command_search` with any name tables (`machine/mod.rs`).

A name counts as what the first of these tables says that holds it: the openers of blocks that are counted, the dividing
names, the ending names, the openers of blocks that are searched by recursion. A name that is listed as an opener twice
opens a counted block, and the dividing lines inside of it are collected with the block's own.

- `searchIn_eq`: the loop with each line it reads proved to be there, and its counter bounded by the number of lines;
- `searchLines_found`: with any tables a search fails, or returns a line with an ending name and dividing lines
  before it;
- `commandSearch_searched`: where the ending names of both kinds of blocks are the same, it returns the line that closes
  the block and the dividing lines that stand in no block searched by recursion.

Witness: `inner_else_collected`: an `else` of an `if` inside.
-/
import BigWorlds.Machine.Search

namespace BigWorlds.Machine

open BigWorlds.Core (Nest Block Ends OwnMiddles)

variable {commands : List CommandPrototype} {d : Defs}

/-! ## Lines and counter in range -/

/-- `k` lines are left from `line` on, and the counter, an `i32` in the source, is at most the number of the others -/
structure Room (commands : List CommandPrototype) (k line diff : ℕ) : Prop where
  lines : k ≤ commands.length - line
  counter : diff + k ≤ commands.length

namespace Room

variable {k line diff : ℕ}

theorem line_lt (h : Room commands (k + 1) line diff) : line < commands.length := by
  have := h.lines
  omega

theorem opened (h : Room commands (k + 1) line diff) : Room commands k (line + 1) (diff + 1) := by
  obtain ⟨hlines, hcounter⟩ := h
  exact ⟨by omega, by omega⟩

theorem next (h : Room commands (k + 1) line diff) : Room commands k (line + 1) diff :=
  ⟨h.opened.lines, Nat.le_of_succ_le (by have := h.counter; omega)⟩

theorem closed (h : Room commands (k + 1) line diff) : Room commands k (line + 1) (diff - 1) :=
  ⟨h.opened.lines, le_trans (Nat.add_le_add_right (Nat.sub_le diff 1) k) h.next.counter⟩

theorem inner (h : Room commands (k + 1) line diff) : Room commands k (line + 1) 0 :=
  ⟨h.opened.lines, le_trans (Nat.add_le_add_right (Nat.zero_le diff) k) h.next.counter⟩

theorem start (commands : List CommandPrototype) (first : ℕ) : Room commands (commands.length - first) first 0 :=
  ⟨le_rfl, by omega⟩

end Room

/-- the loop of `command_search`, where each line it reads is one of the list and the counter is in range -/
def searchIn (commands : List CommandPrototype) (d : Defs) (recurse : Bool) :
    (k line skipTo blockDiff : ℕ) → Room commands k line blockDiff → (mids : List ℕ) →
      Except String (Option (ℕ × List ℕ))
  | 0, _, _, _, _, _ => .error ("no end of structure for begin defs: " ++ debugNames d.starts)
  | k + 1, line, skipTo, blockDiff, room, mids =>
    have hline := room.line_lt
    if line < skipTo then searchIn commands d recurse k (line + 1) skipTo blockDiff room.next mids
    else
      match commands[line].name with
      | none => searchIn commands d recurse k (line + 1) skipTo blockDiff room.next mids
      | some name =>
        if name ∈ d.startBlocks then searchIn commands d recurse k (line + 1) skipTo (blockDiff + 1) room.opened mids
        else if name ∈ d.middles then
          searchIn commands d recurse k (line + 1) skipTo blockDiff room.next (mids ++ [line])
        else if name ∈ d.endBlocks ∧ 0 < blockDiff then
          searchIn commands d recurse k (line + 1) skipTo (blockDiff - 1) room.closed mids
        else if name ∈ d.ends then .ok (some (line, mids))
        else if name ∈ d.starts then
          if recurse then
            match searchIn commands d recurse k (line + 1) (line + 1) 0 room.inner [] with
            | .ok (some (e, _)) => searchIn commands d recurse k (line + 1) (e + 1) blockDiff room.next mids
            | .ok none => .error ("bad nesting: got " ++ name ++ " but end not found")
            | .error e => .error e
          else .error ("bad nesting: got " ++ name)
        else searchIn commands d recurse k (line + 1) skipTo blockDiff room.next mids

/-- **No index is out of range**, and the counter is at most the number of lines. -/
theorem searchIn_eq (recurse : Bool) (k line skipTo diff : ℕ) (room : Room commands k line diff) (mids : List ℕ) :
    searchIn commands d recurse k line skipTo diff room mids =
      searchLines commands d recurse k line skipTo diff mids := by
  induction k generalizing line skipTo diff mids with
  | zero => rfl
  | succ k ih =>
    have hline := room.line_lt
    have hread : (commands[line]?).bind (·.name) = commands[line].name := by
      rw [List.getElem?_eq_getElem room.line_lt, Option.bind_some]
    simp only [searchIn, searchLines, hread, ih] <;> rfl

/-! ## What any search returns -/

/-- line `e` has an ending name, and `ms` are lines with dividing names before it -/
structure Found (commands : List CommandPrototype) (d : Defs) (first e : ℕ) (ms : List ℕ) : Prop where
  after : first ≤ e
  ending : ∃ name ∈ d.ends, nameAt commands e = some name
  sorted : ms.Pairwise (· < ·)
  middles : ∀ m ∈ ms, first ≤ m ∧ m < e ∧ ∃ name ∈ d.middles, nameAt commands m = some name

theorem Found.earlier {line e : ℕ} {ms : List ℕ} (h : Found commands d (line + 1) e ms) :
    Found commands d line e ms where
  after := Nat.le_of_succ_le h.after
  ending := h.ending
  sorted := h.sorted
  middles m hm := ⟨Nat.le_of_succ_le (h.middles m hm).1, (h.middles m hm).2⟩

theorem Found.cons {line e : ℕ} {ms : List ℕ} {name : String} (h : Found commands d (line + 1) e ms)
    (hn : nameAt commands line = some name) (hmid : name ∈ d.middles) : Found commands d line e (line :: ms) where
  after := Nat.le_of_succ_le h.after
  ending := h.ending
  sorted := List.pairwise_cons.mpr ⟨fun m hm => (h.middles m hm).1, h.sorted⟩
  middles m hm := by
    rcases List.mem_cons.mp hm with rfl | hm
    · exact ⟨le_rfl, h.after, name, hmid, hn⟩
    · exact h.earlier.middles m hm

/-- how a search ends from a line on -/
def Searches (commands : List CommandPrototype) (d : Defs) (line : ℕ) (mids : List ℕ)
    (result : Except String (Option (ℕ × List ℕ))) : Prop :=
  (∃ text, result = .error text) ∨ ∃ e ms, result = .ok (some (e, mids ++ ms)) ∧ Found commands d line e ms

theorem Searches.earlier {line : ℕ} {mids : List ℕ} {result : Except String (Option (ℕ × List ℕ))}
    (h : Searches commands d (line + 1) mids result) : Searches commands d line mids result := by
  rcases h with herror | ⟨e, ms, hok, hfound⟩
  · exact Or.inl herror
  · exact Or.inr ⟨e, ms, hok, hfound.earlier⟩

/-- **Any tables.** A search fails, or it returns a line with an ending name and lines with dividing names before it. -/
theorem searchLines_found (recurse : Bool) (k line skipTo diff : ℕ) (mids : List ℕ) :
    Searches commands d line mids (searchLines commands d recurse k line skipTo diff mids) := by
  induction k generalizing line skipTo diff mids with
  | zero => exact Or.inl ⟨_, rfl⟩
  | succ k ih =>
    rw [searchLines]
    by_cases hskip : line < skipTo
    · rw [if_pos hskip]
      exact (ih (line + 1) skipTo diff mids).earlier
    · rw [if_neg hskip]
      cases hn : (commands[line]?).bind (·.name) with
      | none => exact (ih (line + 1) skipTo diff mids).earlier
      | some name =>
        dsimp only
        split_ifs with hblock hmid hclose hend hstart hrecurse
        · exact (ih (line + 1) skipTo (diff + 1) mids).earlier
        · rcases ih (line + 1) skipTo diff (mids ++ [line]) with herror | ⟨e, ms, hok, hfound⟩
          · exact Or.inl herror
          · refine Or.inr ⟨e, line :: ms, ?_, hfound.cons hn hmid⟩
            rw [hok, List.append_assoc]
            rfl
        · exact (ih (line + 1) skipTo (diff - 1) mids).earlier
        · have hfound : Found commands d line line [] :=
            ⟨le_rfl, ⟨name, hend, hn⟩, List.Pairwise.nil, fun m hm => absurd hm List.not_mem_nil⟩
          exact Or.inr ⟨line, [], by rw [List.append_nil], hfound⟩
        · -- the inner search only says how far to skip
          rcases ih (line + 1) (line + 1) 0 [] with ⟨text, herror⟩ | ⟨e, ms, hok, _⟩
          · rw [herror]
            exact Or.inl ⟨text, rfl⟩
          · rw [hok]
            exact (ih (line + 1) (e + 1) diff mids).earlier
        · exact Or.inl ⟨_, rfl⟩
        · exact (ih (line + 1) skipTo diff mids).earlier

/-! ## Equal ending names -/

/-- only which names the tables hold counts -/
theorem searchLines_endBlocks (h : ∀ name, name ∈ d.endBlocks ↔ name ∈ d.ends) (recurse : Bool)
    (k line skipTo diff : ℕ) (mids : List ℕ) :
    searchLines commands d recurse k line skipTo diff mids =
      searchLines commands { d with endBlocks := d.ends } recurse k line skipTo diff mids := by
  induction k generalizing line skipTo diff mids with
  | zero => rfl
  | succ k ih => simp only [searchLines, h, ih]

/-- a line that a search sees closing is one of the list, with an ending name -/
theorem ending_of_seen {line : ℕ} (h : d.seen commands line = .closes) : line < commands.length ∧ d.ends ≠ [] := by
  obtain ⟨name, hn, hv⟩ := name_of_seen h (by simp)
  obtain ⟨c, hc, _⟩ := Option.bind_eq_some_iff.mp hn
  exact ⟨(List.getElem?_eq_some_iff.mp hc).1, List.ne_nil_of_mem (view_closes_iff.1 hv).2.2⟩

/-! ## All searches -/

/-- a search from line `first`, the one after the line that opens the block -/
structure Searched (commands : List CommandPrototype) (d : Defs) (first : ℕ) : Prop where
  inRange : ∀ recurse, searchIn commands d recurse (commands.length - first) first first 0 (.start commands first) [] =
    searchLines commands d recurse (commands.length - first) first first 0 []
  returns : ∀ recurse, (∃ text, commandSearch commands first d recurse = .error text) ∨
    ∃ e ms, commandSearch commands first d recurse = .ok (some (e, ms)) ∧ Found commands d first e ms
  matching : d.starts ≠ [] → (∀ name, name ∈ d.endBlocks ↔ name ∈ d.ends) → ∀ e, Ends (d.seen commands) first e →
    ∃ ms, commandSearch commands first d true = .ok (some (e, ms)) ∧ OwnMiddles (d.seen commands) first e ms

/-- **All searches.** With any tables a search fails, or returns a line with an ending name and dividing lines before
it. Where both kinds of blocks end with the same names, it returns the line that closes the block and the dividing
lines that stand in no block it searches by recursion, each name taken as the first table says that holds it. -/
theorem commandSearch_searched (commands : List CommandPrototype) (d : Defs) (first : ℕ) :
    Searched commands d first where
  inRange recurse := searchIn_eq recurse _ first first 0 (.start commands first) []
  returns recurse := by
    unfold commandSearch
    split_ifs
    · exact Or.inl ⟨_, rfl⟩
    · exact Or.inl ⟨_, rfl⟩
    · exact searchLines_found recurse (commands.length - first) first first 0 []
  matching hstarts hsame e hends := by
    obtain ⟨hlt, hne⟩ := ending_of_seen hends.closes
    have hclose := Core.firstClose_zero_iff.mpr ⟨hends, show e < first + (commands.length - first) by omega⟩
    have hcollects :=
      @searchLines_collects commands { d with endBlocks := d.ends } rfl (commands.length - first) first 0 []
    have hseen : Defs.seen { d with endBlocks := d.ends } commands = d.seen commands := rfl
    rw [hseen, hclose] at hcollects
    obtain ⟨ms, hown, hms⟩ := hcollects
    refine ⟨ms, ?_, hown⟩
    rw [commandSearch, if_neg hstarts, if_neg hne, searchLines_endBlocks hsame, hms, List.nil_append]

example : commandSearch (["if", "if", "else", "end", "else", "end"].map fun name => ⟨some name, none, none⟩) 1
    If.defs true = .ok (some (5, [4])) := rfl

/-! ## A name in both tables of openers -/

/-- an `if` inside of an `if`; the `else` is the inner one's -/
def innerElse : List CommandPrototype :=
  ["if", "if", "else", "end", "end"].map fun name => ⟨some name, none, none⟩

/-- `If.defs` with `if` among the counted openers too -/
def countedIf : Defs := { If.defs with startBlocks := ifCommandNames }

theorem inner_else_nest : Nest (mark innerElse) (.arms true) 2 [2] 3 :=
  .middle (.nil 2) (by decide) (.close true (.nil 3) (by decide))

/-- **An `else` of an `if` inside.** The list is well nested, all its openers are in the tables and both kinds of blocks
end with `end`, but the search for the end of the outer `if` returns the `else` of the inner one. -/
theorem inner_else_collected :
    WellNested innerElse ∧ (∀ c ∈ innerElse, ∀ name ∈ c.name, name ∈ openerNames →
      name ∈ countedIf.starts ∨ name ∈ countedIf.startBlocks) ∧ countedIf.endBlocks = countedIf.ends ∧
    Block (mark innerElse) 0 [] 4 ∧ Block (mark innerElse) 1 [2] 3 ∧ nameAt innerElse 1 = some "if" ∧
    "if" ∈ countedIf.starts ∧ commandSearch innerElse 1 countedIf true = .ok (some (4, [2])) := by
  have hinner : Nest (mark innerElse) .seq 1 [] 4 := .block (f := true) (by decide) inner_else_nest (.nil 4)
  have houter : Nest (mark innerElse) (.arms true) 1 [] 4 := .close true hinner (by decide)
  exact ⟨.block (by decide) houter (.nil 5), by decide, rfl, ⟨true, by decide, houter⟩,
    ⟨true, by decide, inner_else_nest⟩, rfl, by decide, rfl⟩

end BigWorlds.Machine
