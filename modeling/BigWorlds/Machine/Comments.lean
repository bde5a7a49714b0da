/-
Comments, semicolons and continued lines in scripts (`machine/script/parser.rs` `parse_script`).

Lines are joined and split at semicolons before comments and quotes are looked at. So a comment line that ends with a
backslash takes the next line with it, a semicolon ends a comment and splits a quoted text, and what ends with a
backslash at the end of the text is not read at all.

- `scriptCommands_eq`: what a script gives, line by line;
- `lexLine_comment`: a line that is read says the same with a comment behind it;
- `comments_and_separators`: which comments may be inserted and deleted where, which lines are not split inside quotes,
  and which continued lines are not dropped.
-/
import BigWorlds.Machine.Lexer
import BigWorlds.Machine.Preprocessor
import Mathlib.Data.List.Induction

namespace BigWorlds.Machine

open BigWorlds.Core (utf8Length sliceFrom split)

variable (L : Libraries)

/-! ## What a script gives -/

/-- the commands and directives that are parsed, without their places; none if the script is refused -/
def contents (parsed : Except Failure (List Instruction)) : Option (List Lexed) :=
  parsed.toOption.map fun instructions => (eliminateEmpty instructions).map fun i => ⟨i.location.tag, i.type_⟩

/-- the location that a script is parsed with -/
def scriptLocation (root source : Option String) : LocationInfo :=
  { LocationInfo.empty with root := root, source := source }

/-- what a script with these lines gives -/
def scriptCommands (location : LocationInfo) (ls : List (List Char)) : Option (List Lexed) :=
  contents (parseScript.loop L location ls 1 none 0)

theorem contents_parseScript (text : String) (location : LocationInfo) :
    contents (parseScript L text location) = scriptCommands L location (lines text.toList) := rfl

/-- the line goes on with the next one -/
def Continued (line : List Char) : Prop := (trimEnd line).getLast? = some '\\'

instance (line : List Char) : Decidable (Continued line) :=
  inferInstanceAs (Decidable ((trimEnd line).getLast? = some '\\'))

/-- a line behind what has been kept -/
def joinedLine (kept : Option (List Char)) (l : List Char) : List Char := kept.getD [] ++ trim l

/-- `multiline_str` after a line -/
def keptAfterLine (kept : Option (List Char)) (l : List Char) : Option (List Char) :=
  if Continued (joinedLine kept l) then some (joinedLine kept l).dropLast else none

/-- `multiline_str` after lines -/
def keptAfter (kept : Option (List Char)) (ls : List (List Char)) : Option (List Char) := ls.foldl keptAfterLine kept

/-- what is said that is not empty -/
def Lexed.toList (l : Lexed) : List Lexed := if l.type_ = .none_ then [] else [l]

/-- what the parts of a line give -/
def sayParts : List (List Char) → Option (List Lexed)
  | [] => some []
  | part :: parts => do return (← lexLine L part).toList ++ (← sayParts parts)

/-- what a line gives that is not continued -/
def sayLine (line : List Char) : Option (List Lexed) :=
  if line.head? = some '#' then some [] else sayParts L (line.splitOn ';')

/-- what lines give, behind what has been kept -/
def sayLines : (kept : Option (List Char)) → List (List Char) → Option (List Lexed)
  | _, [] => some []
  | kept, l :: ls =>
    if Continued (joinedLine kept l) then
      if (joinedLine kept l).getLast?.map Char.utf8Size = some 1 then sayLines (keptAfterLine kept l) ls else none
    else do return (← sayLine L (joinedLine kept l)) ++ (← sayLines none ls)

/-- a text that is read and gives nothing -/
def Silent (location : LocationInfo) (part : List Char) : Prop :=
  ∃ i, parseLine L part location = .ok i ∧ i.type_ = .none_

section
variable {L} {kept : Option (List Char)} {l line : List Char} {ls parts parts' before after : List (List Char)}

theorem sayParts_cons (part : List Char) : sayParts L (part :: parts) =
    (do return (← lexLine L part).toList ++ (← sayParts L parts)) := rfl

theorem sayParts_append : sayParts L (parts ++ parts') =
    (sayParts L parts).bind fun front => (sayParts L parts').map (front ++ ·) := by
  induction parts with
  | nil => simp [sayParts]
  | cons part parts ih =>
    rw [List.cons_append, sayParts_cons, sayParts_cons, ih]
    cases lexLine L part with
    | none => rfl
    | some x =>
      cases sayParts L parts with
      | none => rfl
      | some front => cases sayParts L parts' <;> simp

theorem sayParts_singleton (part : List Char) : sayParts L [part] = (lexLine L part).map Lexed.toList := by
  cases h : lexLine L part <;> simp [sayParts, h]

theorem trim_trim (cs : List Char) : trim (trim cs) = trim cs := by
  have hstart : trimStart (trim cs) = trim cs := by
    unfold trim
    by_cases hne : trimEnd (trimStart cs) = []
    · rw [hne]
      rfl
    · obtain ⟨suffix, hsuffix⟩ := List.rdropWhile_prefix isWhitespace (trimStart cs)
      obtain ⟨c, rest, hc⟩ := List.exists_cons_of_ne_nil hne
      have hhead : (trimStart cs).head? = some c := by
        rw [← hsuffix]
        show (trimEnd (trimStart cs) ++ suffix).head? = some c
        rw [hc]
        rfl
      rw [hc]
      unfold trimStart at hhead ⊢
      have hdrop := List.head?_dropWhile_not isWhitespace cs
      rw [hhead] at hdrop
      exact List.dropWhile_cons_of_neg (by simpa using hdrop)
  show trimEnd (trimStart (trim cs)) = _
  rw [hstart]
  exact List.rdropWhile_idempotent isWhitespace _

/-- blanks around a line make no difference -/
theorem lexLine_trim (line : List Char) : lexLine L (trim line) = lexLine L line := by
  unfold lexLine
  rw [trim_trim]

theorem lexLine_nil : lexLine L [] = some ⟨none, .none_⟩ := if_pos (Or.inl rfl)

/-- blank parts give nothing -/
theorem sayParts_filter (parts : List (List Char)) :
    sayParts L ((parts.map trim).filter (· ≠ [])) = sayParts L parts := by
  induction parts with
  | nil => rfl
  | cons part parts ih =>
    rw [List.map_cons]
    by_cases hblank : trim part = []
    · have hpart : lexLine L part = some ⟨none, .none_⟩ := by rw [← lexLine_trim, hblank, lexLine_nil]
      rw [List.filter_cons_of_neg (by simpa using hblank), ih, sayParts_cons, hpart]
      simp [Lexed.toList]
    · rw [List.filter_cons_of_pos (by simpa using hblank), sayParts_cons, sayParts_cons, ih, lexLine_trim]

theorem sayParts_splitLines (line : List Char) : sayParts L (splitLines line) = sayParts L (line.splitOn ';') := by
  unfold splitLines
  split_ifs with hsemicolon
  · exact sayParts_filter _
  · rw [List.splitOn_eq_singleton hsemicolon]

/-- the commands of a list of lines that are read -/
theorem contents_mapM (location : LocationInfo) (numbered : List (ℕ × List Char)) :
    (numbered.mapM (lexNumbered L location)).map (fun instructions =>
        (eliminateEmpty instructions).map fun i => (⟨i.location.tag, i.type_⟩ : Lexed)) =
      sayParts L (numbered.map Prod.snd) := by
  induction numbered with
  | nil => rfl
  | cons first numbered ih =>
    rw [List.map_cons, sayParts_cons, ← ih, List.mapM_cons]
    show ((lexNumbered L location first).bind fun i => (numbered.mapM (lexNumbered L location)).bind fun is =>
      some (i :: is)).map _ = _
    rw [show lexNumbered L location first =
      (lexLine L first.2).map (Lexed.at { location with sourceLine := some first.1 }) from rfl]
    cases lexLine L first.2 with
    | none => rfl
    | some x =>
      cases numbered.mapM (lexNumbered L location) with
      | none => rfl
      | some instructions =>
        by_cases hnone : x.type_ = .none_
        · simp [Lexed.at, eliminateEmpty, Lexed.toList, hnone]
        · simp [Lexed.at, eliminateEmpty, Lexed.toList, hnone]

theorem logicalLines_says (n number : ℕ) (kept : Option (List Char)) (ls : List (List Char)) :
    ((logicalLines ls n (kept.map (·, number))).bind fun numbered => sayParts L (numbered.map Prod.snd)) =
      sayLines L kept ls := by
  induction ls generalizing n number kept with
  | nil => rfl
  | cons l ls ih =>
    have hline : (Option.map Prod.fst (kept.map (·, number))).getD [] ++ trim l = joinedLine kept l := by
      cases kept <;> rfl
    rw [logicalLines, sayLines, hline]
    generalize hnumber : (Option.map Prod.snd (kept.map (·, number))).getD n = number'
    by_cases hcontinued : Continued (joinedLine kept l)
    · have hback : (trimEnd (joinedLine kept l)).getLast? = some '\\' := hcontinued
      rw [if_pos hback, if_pos hcontinued, keptAfterLine, if_pos hcontinued]
      split_ifs
      · exact ih (n + 1) number' (some _)
      · rfl
    have hback : ¬ (trimEnd (joinedLine kept l)).getLast? = some '\\' := hcontinued
    rw [if_neg hback, if_neg hcontinued, sayLine, ← ih (n + 1) 0 none]
    by_cases hcomment : (joinedLine kept l).head? = some '#'
    · rw [if_pos hcomment, if_pos hcomment]
      simp
    · rw [if_neg hcomment, if_neg hcomment, ← sayParts_splitLines, Option.map_none]
      cases logicalLines ls (n + 1) none with
      | none => cases sayParts L (splitLines (joinedLine kept l)) <;> rfl
      | some rest =>
        rw [Option.map_some, Option.bind_some, Option.bind_some, List.map_append, List.map_map, sayParts_append]
        have hparts : (splitLines (joinedLine kept l)).map (Prod.snd ∘ (number', ·)) = splitLines (joinedLine kept l) :=
          List.map_id' _
        rw [hparts]
        cases sayParts L (splitLines (joinedLine kept l)) with
        | none => rfl
        | some front => cases sayParts L (rest.map Prod.snd) <;> simp

/-- **What a script gives.** The parser gives what its lines do, one after the other. -/
theorem scriptCommands_eq (root source : Option String) (ls : List (List Char)) :
    scriptCommands L (scriptLocation root source) ls = sayLines L none ls := by
  unfold scriptCommands contents
  have htag : (scriptLocation root source).tag = none := rfl
  rw [parseScript_loop_toOption L htag, ← logicalLines_says 1 0 none ls, Option.map_bind]
  refine congrArg (Option.bind _) (funext fun numbered => ?_)
  exact contents_mapM _ numbered

theorem sayLines_append (kept : Option (List Char)) (before ls : List (List Char)) :
    sayLines L kept (before ++ ls) =
      (sayLines L kept before).bind fun front => (sayLines L (keptAfter kept before) ls).map (front ++ ·) := by
  induction before generalizing kept with
  | nil => simp [sayLines, keptAfter]
  | cons l before ih =>
    have hkept : keptAfter kept (l :: before) = keptAfter (keptAfterLine kept l) before := rfl
    rw [List.cons_append, sayLines, sayLines, hkept]
    by_cases hcontinued : Continued (joinedLine kept l)
    · rw [if_pos hcontinued, if_pos hcontinued]
      split_ifs
      · exact ih _
      · rfl
    · rw [if_neg hcontinued, if_neg hcontinued, ih none, keptAfterLine, if_neg hcontinued]
      cases sayLine L (joinedLine kept l) with
      | none => rfl
      | some x =>
        cases sayLines L none before with
        | none => rfl
        | some front => cases sayLines L (keptAfter none before) ls <;> simp

/-! ## Lines that are not continued -/

theorem trimEnd_append_of_last {c : Char} (front : List Char) (hc : isWhitespace c = false) :
    trimEnd (front ++ [c]) = front ++ [c] :=
  List.rdropWhile_concat_neg _ _ _ (by simp [hc])

/-- a line that ends with another character is not continued -/
theorem not_continued_append {c : Char} (front : List Char) (hc : isWhitespace c = false) (hback : c ≠ '\\') :
    ¬ Continued (front ++ [c]) := by
  unfold Continued
  rw [trimEnd_append_of_last front hc, List.getLast?_concat]
  exact fun h => hback (Option.some.inj h)

/-- what follows an empty text that was kept -/
theorem sayLines_kept_nil (ls : List (List Char)) : sayLines L (some []) ls = sayLines L none ls := by
  cases ls <;> rfl

theorem sayLines_line (hcontinued : ¬ Continued (joinedLine kept l)) : sayLines L kept (l :: ls) =
    (sayLine L (joinedLine kept l)).bind fun x => (sayLines L none ls).map (x ++ ·) := by
  rw [sayLines, if_neg hcontinued]
  cases sayLine L (joinedLine kept l) with
  | none => rfl
  | some x => cases sayLines L none ls <;> rfl

/-- a last line that is continued gives nothing -/
theorem sayLines_last (hcontinued : Continued (joinedLine kept l)) {x : List Lexed} (h : sayLines L kept [l] = some x) :
    x = [] := by
  rw [sayLines, if_pos hcontinued] at h
  split_ifs at h
  exact (Option.some.inj h).symm

theorem sayLines_skip (hcontinued : ¬ Continued (joinedLine kept l)) (hcomment : (joinedLine kept l).head? = some '#') :
    sayLines L kept (l :: ls) = sayLines L none ls := by
  rw [sayLines_line hcontinued, sayLine, if_pos hcomment]
  simp

/-- the line `end` -/
def endLine : List Char := ['e', 'n', 'd']

theorem sayParts_endLine : sayParts L [endLine] =
    (L.shlex "").map fun arguments => [⟨none, .command ⟨some "end", some arguments, none⟩⟩] := by
  rw [sayParts_singleton, show lexLine L endLine =
    (L.shlex "").bind fun arguments => some ⟨none, .command ⟨some "end", some arguments, none⟩⟩ from rfl]
  cases L.shlex "" <;> rfl

theorem sayParts_endLine_ne (parts : List (List Char)) : sayParts L (parts ++ [endLine]) ≠ some [] := by
  rw [sayParts_append, sayParts_endLine]
  cases sayParts L parts with
  | none => simp
  | some front => cases L.shlex "" <;> simp

theorem sayLines_endLine_ne : sayLines L none [endLine] ≠ some [] := by
  have hcontinued : ¬ Continued (joinedLine none endLine) := not_continued_append ['e', 'n'] (by decide) (by decide)
  rw [sayLines_line hcontinued]
  have hend := @sayParts_endLine_ne L []
  have hline : sayLine L (joinedLine none endLine) = sayParts L ([] ++ [endLine]) := rfl
  rw [hline]
  cases h : sayParts L ([] ++ [endLine]) with
  | none => simp
  | some x => simpa [sayLines] using fun hx => hend (by rw [h, hx])

/-- a line that starts with a hash -/
def IsComment (c : List Char) : Prop := (trim c).head? = some '#'

instance (c : List Char) : Decidable (IsComment c) := inferInstanceAs (Decidable ((trim c).head? = some '#'))

/-- a comment of its own line is left out, unless it is continued -/
theorem sayLines_comment {c : List Char} (hc : IsComment c) (hcontinued : ¬ Continued (trim c)) :
    sayLines L none (c :: ls) = sayLines L none ls :=
  @sayLines_skip L none c ls hcontinued hc

theorem trimEnd_trim (cs : List Char) : trimEnd (trim cs) = trim cs := List.rdropWhile_idempotent isWhitespace _

/-- a comment that is continued takes the next line with it -/
theorem sayLines_continued_comment {c : List Char} (hc : IsComment c) (hcontinued : Continued (trim c)) :
    sayLines L none [c, endLine] = some [] := by
  have hlast : (trim c).getLast? = some '\\' := by
    rw [← trimEnd_trim]
    exact hcontinued
  have hjoined : joinedLine none c = trim c := rfl
  have hhead : (trim c).dropLast.head? = some '#' := by
    obtain ⟨d, rest, hd⟩ : ∃ d rest, trim c = d :: rest := by
      cases h : trim c with
      | nil => exact absurd (h ▸ hlast) (by simp)
      | cons d rest => exact ⟨d, rest, rfl⟩
    have hcomment : (trim c).head? = some '#' := hc
    rw [hd] at hcomment hlast ⊢
    obtain rfl := Option.some.inj hcomment
    cases rest with
    | nil => exact absurd hlast (by simp)
    | cons e rest => rfl
  rw [sayLines, if_pos (by rwa [hjoined]), hjoined, hlast, if_pos (by rfl), keptAfterLine,
    if_pos (by rwa [hjoined]), hjoined]
  refine sayLines_skip ?_ ?_
  · rw [joinedLine, show trim endLine = ['e', 'n'] ++ ['d'] from rfl, ← List.append_assoc]
    exact not_continued_append _ (by decide) (by decide)
  · show ((trim c).dropLast ++ trim endLine).head? = some '#'
    rw [List.head?_append, hhead]
    rfl

/-- inside a line that is continued, with a text kept, some comment makes a difference -/
theorem exists_comment_ne {m : List Char} (hm : m ≠ []) : ∃ c after, IsComment c ∧ ¬ Continued (trim c) ∧
    sayLines L (some m) (c :: after) ≠ sayLines L (some m) after := by
  have hends : ∀ front : List Char, ¬ Continued (front ++ endLine) := by
    intro front
    rw [show endLine = ['e', 'n'] ++ ['d'] from rfl, ← List.append_assoc]
    exact not_continued_append _ (by decide) (by decide)
  by_cases hcomment : m.head? = some '#'
  · refine ⟨['#'], [endLine], by decide, by decide, ?_⟩
    have hhead : ∀ l, (joinedLine (some m) l).head? = some '#' := by
      intro l
      show (m ++ trim l).head? = _
      rw [List.head?_append, hcomment]
      rfl
    have hcontinued : ¬ Continued (joinedLine (some m) ['#']) := not_continued_append m (by decide) (by decide)
    have hend : ¬ Continued (joinedLine (some m) endLine) := hends m
    rw [sayLines_skip hcontinued (hhead ['#']), sayLines_skip hend (hhead endLine)]
    exact sayLines_endLine_ne
  · refine ⟨'#' :: ';' :: endLine, [], by decide, by decide, ?_⟩
    have hjoined : joinedLine (some m) ('#' :: ';' :: endLine) = (m ++ ['#']) ++ ';' :: endLine := by
      show m ++ ('#' :: ';' :: endLine) = _
      simp
    have hhead : ((m ++ ['#']) ++ ';' :: endLine).head? ≠ some '#' := by
      rw [List.append_assoc, List.head?_append_of_ne_nil _ hm]
      exact hcomment
    have hcontinued : ¬ Continued ((m ++ ['#']) ++ ';' :: endLine) := by
      rw [List.append_cons]
      exact hends _
    have hparts : ((m ++ ['#']) ++ ';' :: endLine).splitOn ';' = (m ++ ['#']).splitOn ';' ++ [endLine] := by
      have hend : ';' ∉ endLine := by decide
      rw [List.splitOn_append_cons_self, List.splitOn_eq_singleton hend]
    rw [sayLines_line (by rwa [hjoined]), hjoined, sayLine, if_neg hhead, hparts]
    have hend := @sayParts_endLine_ne L ((m ++ ['#']).splitOn ';')
    cases h : sayParts L ((m ++ ['#']).splitOn ';' ++ [endLine]) with
    | none => simp [sayLines]
    | some x => simpa [sayLines] using fun hx => hend (by rw [h, hx])

end

/-! ## A comment behind a line -/

/-- a comment as it stands behind a command -/
def trailing (t : List Char) : List Char := ' ' :: '#' :: t

/-- a place in a line, and the same place where a comment is behind the line -/
def Place.Longer (ascii : Bool) (t : List Char) : Place → Place → Prop
  | some rest, place' => place' = some (rest ++ trailing t)
  | none, place' => place' = none ∨ ascii = true ∧ place' = some (trailing t)

section
variable {ascii stopOnEquals : Bool} (ascii' : Bool) (t : List Char) {rest value : List Char} {place place' : Place}

theorem endsValue_blank (stopOnEquals : Bool) : endsValue stopOnEquals ' ' = true := by simp [endsValue]

theorem restOfValue_trailing (h : restOfValue ascii stopOnEquals rest = some (value, place)) :
    ∃ place', restOfValue ascii' stopOnEquals (rest ++ trailing t) = some (value, place') ∧
      place.Longer ascii t place' := by
  induction rest generalizing value with
  | nil =>
    rw [restOfValue] at h
    split_ifs at h with hascii
    obtain ⟨rfl, rfl⟩ := Prod.mk.inj (Option.some.inj h)
    refine ⟨some (trailing t), ?_, Or.inr ⟨hascii, rfl⟩⟩
    rw [List.nil_append, trailing, restOfValue, if_pos (endsValue_blank _)]
    rfl
  | cons c rest ih =>
    rw [restOfValue] at h
    rw [List.cons_append, restOfValue]
    by_cases hends : endsValue stopOnEquals c = true
    · rw [if_pos hends] at h ⊢
      obtain ⟨rfl, rfl⟩ := Prod.mk.inj (Option.some.inj h)
      refine ⟨_, rfl, ?_⟩
      by_cases hcomment : c = '#'
      · rw [if_pos hcomment, if_pos hcomment]
        exact Or.inl rfl
      · rw [if_neg hcomment, if_neg hcomment]
        rfl
    · rw [if_neg hends] at h ⊢
      obtain ⟨⟨value', place'⟩, hrest, heq⟩ := Option.map_eq_some_iff.mp h
      obtain ⟨rfl, rfl⟩ := Prod.mk.inj heq
      obtain ⟨longer, hlonger, hplace⟩ := ih hrest
      exact ⟨longer, by rw [hlonger]; rfl, hplace⟩

/-- a comment has no value -/
theorem lexValue_comment : lexValue ascii stopOnEquals (trailing t) = some ([], none) := by
  rw [trailing, lexValue, if_pos rfl, lexValue, if_neg (by decide), if_pos rfl]

theorem lexValue_trailing (h : lexValue ascii stopOnEquals rest = some (value, place)) :
    ∃ place', lexValue ascii' stopOnEquals (rest ++ trailing t) = some (value, place') ∧
      place.Longer ascii t place' := by
  induction rest with
  | nil =>
    rw [lexValue] at h
    split_ifs at h
    obtain ⟨rfl, rfl⟩ := Prod.mk.inj (Option.some.inj h)
    exact ⟨none, lexValue_comment t, Or.inl rfl⟩
  | cons c rest ih =>
    rw [lexValue] at h
    rw [List.cons_append, lexValue]
    by_cases hblank : c = ' '
    · rw [if_pos hblank] at h ⊢
      exact ih h
    rw [if_neg hblank] at h ⊢
    by_cases hcomment : c = '#'
    · rw [if_pos hcomment] at h ⊢
      obtain ⟨rfl, rfl⟩ := Prod.mk.inj (Option.some.inj h)
      exact ⟨none, rfl, Or.inl rfl⟩
    rw [if_neg hcomment] at h ⊢
    by_cases hquote : c = '"'
    · rw [if_pos hquote] at h
      exact absurd h (by simp)
    · rw [if_neg hquote] at h ⊢
      obtain ⟨⟨value', place'⟩, hrest, heq⟩ := Option.map_eq_some_iff.mp h
      obtain ⟨rfl, rfl⟩ := Prod.mk.inj heq
      obtain ⟨longer, hlonger, hplace⟩ := restOfValue_trailing ascii' t hrest
      exact ⟨longer, by rw [hlonger]; rfl, hplace⟩

theorem lexEquals_comment : lexEquals ascii (trailing t) = some none := by
  rw [trailing, lexEquals, if_pos rfl, lexEquals, if_neg (by decide), if_neg (by decide)]

theorem lexEquals_trailing {next : Place} (h : lexEquals ascii rest = some next) :
    lexEquals ascii' (rest ++ trailing t) = some (next.map (· ++ trailing t)) := by
  induction rest with
  | nil =>
    rw [lexEquals] at h
    split_ifs at h
    obtain rfl := Option.some.inj h
    exact lexEquals_comment t
  | cons c rest ih =>
    rw [lexEquals] at h
    rw [List.cons_append, lexEquals]
    by_cases hblank : c = ' '
    · rw [if_pos hblank] at h ⊢
      exact ih h
    · rw [if_neg hblank] at h ⊢
      obtain rfl := Option.some.inj h
      split_ifs <;> rfl

/-- nothing is named where a comment is next -/
theorem lexNames_comment : lexNames ascii (some (trailing t)) = some (none, none, none) := by
  simp [lexNames, lexValue_comment]

theorem lexNames_trailing {output name : Option (List Char)} {after : Place} (hplace : place.Longer ascii t place')
    (h : lexNames ascii place = some (output, name, after)) :
    ∃ after', lexNames ascii' place' = some (output, name, after') ∧ after.Longer ascii t after' := by
  cases place with
  | none =>
    obtain ⟨rfl, rfl, rfl⟩ : none = output ∧ none = name ∧ none = after := by simpa [lexNames] using h
    rcases hplace with rfl | ⟨_, rfl⟩
    · exact ⟨none, rfl, Or.inl rfl⟩
    · exact ⟨none, lexNames_comment t, Or.inl rfl⟩
  | some rest =>
    obtain rfl : place' = some (rest ++ trailing t) := hplace
    obtain ⟨⟨value, next⟩, hvalue, h⟩ := Option.bind_eq_some_iff.mp h
    obtain ⟨next', hvalue', hnext⟩ := lexValue_trailing ascii' t hvalue
    rw [lexNames, hvalue']
    dsimp only at h
    show ∃ after', (if value = [] then _ else _ : Option _) = _ ∧ _
    by_cases hempty : value = []
    · rw [if_pos hempty] at h ⊢
      obtain ⟨rfl, rfl, rfl⟩ : none = output ∧ none = name ∧ next = after := by simpa using h
      exact ⟨next', rfl, hnext⟩
    rw [if_neg hempty] at h ⊢
    cases next with
    | none =>
      obtain ⟨rfl, rfl, rfl⟩ : none = output ∧ some value = name ∧ none = after := by simpa using h
      rcases hnext with rfl | ⟨hascii, rfl⟩
      · exact ⟨none, rfl, Or.inl rfl⟩
      · refine ⟨some (trailing t), ?_, Or.inr ⟨hascii, rfl⟩⟩
        simp [lexEquals_comment]
    | some next =>
      obtain rfl : next' = some (next ++ trailing t) := hnext
      obtain ⟨equals, hequals, h⟩ := Option.bind_eq_some_iff.mp h
      have hequals' := lexEquals_trailing ascii' t hequals
      cases equals with
      | none =>
        obtain ⟨rfl, rfl, rfl⟩ : none = output ∧ some value = name ∧ some next = after := by simpa using h
        refine ⟨some (next ++ trailing t), ?_, rfl⟩
        simp [hequals']
      | some rest' =>
        obtain ⟨⟨named, last⟩, hnamed, h⟩ := Option.bind_eq_some_iff.mp h
        obtain ⟨last', hnamed', hlast⟩ := lexValue_trailing ascii' t hnamed
        dsimp only at h
        by_cases hnone : named = []
        · rw [if_pos hnone] at h
          obtain ⟨rfl, rfl, rfl⟩ : some value = output ∧ none = name ∧ some rest' = after := by simpa using h
          refine ⟨some (rest' ++ trailing t), ?_, rfl⟩
          simp [hequals', hnamed', hnone]
        · rw [if_neg hnone] at h
          obtain ⟨rfl, rfl, rfl⟩ : some value = output ∧ some named = name ∧ last = after := by simpa using h
          refine ⟨last', ?_, hlast⟩
          simp [hequals', hnamed', hnone]

theorem restOfName_trailing (h : restOfName ascii rest = some (value, place)) :
    ∃ place', restOfName ascii' (rest ++ trailing t) = some (value, place') ∧ place.Longer ascii t place' := by
  induction rest generalizing value with
  | nil =>
    rw [restOfName] at h
    split_ifs at h with hascii
    obtain ⟨rfl, rfl⟩ := Prod.mk.inj (Option.some.inj h)
    refine ⟨some (trailing t), ?_, Or.inr ⟨hascii, rfl⟩⟩
    rw [List.nil_append, trailing, restOfName, if_pos rfl]
  | cons c rest ih =>
    rw [restOfName] at h
    rw [List.cons_append, restOfName]
    by_cases hblank : c = ' '
    · rw [if_pos hblank] at h ⊢
      obtain ⟨rfl, rfl⟩ := Prod.mk.inj (Option.some.inj h)
      exact ⟨_, rfl, rfl⟩
    · rw [if_neg hblank] at h ⊢
      obtain ⟨⟨value', place'⟩, hrest, heq⟩ := Option.map_eq_some_iff.mp h
      obtain ⟨rfl, rfl⟩ := Prod.mk.inj heq
      obtain ⟨longer, hlonger, hplace⟩ := ih hrest
      exact ⟨longer, by rw [hlonger]; rfl, hplace⟩

theorem lexName_trailing (h : lexName ascii rest = some (value, place)) :
    ∃ place', lexName ascii' (rest ++ trailing t) = some (value, place') ∧ place.Longer ascii t place' := by
  induction rest with
  | nil => exact absurd h (by simp [lexName])
  | cons c rest ih =>
    rw [lexName] at h
    rw [List.cons_append, lexName]
    by_cases hblank : c = ' '
    · rw [if_pos hblank] at h ⊢
      exact ih h
    · rw [if_neg hblank] at h ⊢
      obtain ⟨⟨value', place'⟩, hrest, heq⟩ := Option.map_eq_some_iff.mp h
      obtain ⟨rfl, rfl⟩ := Prod.mk.inj heq
      obtain ⟨longer, hlonger, hplace⟩ := restOfName_trailing ascii' t hrest
      exact ⟨longer, by rw [hlonger]; rfl, hplace⟩

end

/-- what is relied on of `shlex::split`: a hash between words starts a comment, until the end of the line -/
structure Libraries.SkipsComments : Prop where
  comment : ∀ (text t : List Char) (arguments : List String), '\n' ∉ t → L.shlex (String.ofList text) = some arguments →
    L.shlex (String.ofList (text ++ trailing t)) = some arguments

section
variable {L} {t cs : List Char} {place place' : Place}

theorem lexArguments_trailing (hL : L.SkipsComments) (ht : '\n' ∉ t) {arguments : List String}
    (hplace : place.Longer (Ascii cs) t place') (h : lexArguments L cs place = some arguments) :
    lexArguments L (cs ++ trailing t) place' = some arguments := by
  cases place with
  | none =>
    rcases hplace with rfl | ⟨hascii, rfl⟩
    · exact h
    · have hindex : (cs ++ trailing t).length - (trailing t).length = utf8Length cs := by
        rw [List.length_append, Nat.add_sub_cancel]
        exact (of_decide_eq_true hascii).symm
      rw [lexArguments, hindex, Core.sliceFrom_append]
      exact hL.comment [] t arguments ht h
  | some rest =>
    obtain rfl : place' = some (rest ++ trailing t) := hplace
    obtain ⟨text, htext, hwords⟩ := Option.bind_eq_some_iff.mp h
    obtain ⟨front, hfront, hlength⟩ := Core.sliceFrom_eq_some_iff.mp htext
    have hindex : (cs ++ trailing t).length - (rest ++ trailing t).length = cs.length - rest.length := by
      rw [List.length_append, List.length_append, Nat.add_sub_add_right]
    have hslice : sliceFrom (cs ++ trailing t) (cs.length - rest.length) = some (text ++ trailing t) :=
      Core.sliceFrom_eq_some_iff.mpr ⟨front, by rw [hfront, List.append_assoc], hlength⟩
    rw [lexArguments, hindex, hslice]
    exact hL.comment text t arguments ht hwords

theorem lexUntagged_trailing (hL : L.SkipsComments) (ht : '\n' ∉ t) {tag : Option String} {x : Lexed}
    (hplace : place.Longer (Ascii cs) t place') (h : lexUntagged L cs tag place = some x) :
    lexUntagged L (cs ++ trailing t) tag place' = some x := by
  obtain ⟨⟨output, name, after⟩, hnames, h⟩ := Option.bind_eq_some_iff.mp h
  obtain ⟨arguments, harguments, h⟩ := Option.bind_eq_some_iff.mp h
  obtain ⟨after', hnames', hafter⟩ := lexNames_trailing (decide (Ascii (cs ++ trailing t))) t hplace hnames
  have harguments' := lexArguments_trailing hL ht hafter harguments
  rw [lexUntagged, hnames']
  simpa [harguments'] using h

/-- a line that starts with no blank -/
theorem lexTag_trailing {ascii : Bool} (ascii' : Bool) {c : Char} {rest tag : List Char} (hc : c ≠ ' ')
    (h : lexTag ascii (c :: rest) = some (tag, place)) :
    ∃ place', lexTag ascii' (c :: rest ++ trailing t) = some (tag, place') ∧ place.Longer ascii t place' := by
  rw [lexTag] at h
  rw [List.cons_append, lexTag]
  by_cases htag : c = '@'
  · rw [if_pos htag] at h ⊢
    exact lexValue_trailing ascii' t h
  · rw [if_neg htag, if_neg hc] at h ⊢
    obtain ⟨rfl, rfl⟩ := Prod.mk.inj (Option.some.inj h)
    exact ⟨_, rfl, rfl⟩

theorem lexCommand_trailing (hL : L.SkipsComments) (ht : '\n' ∉ t) {c : Char} {rest : List Char} {x : Lexed}
    (hc : c ≠ ' ') (h : lexCommand L (c :: rest) = some x) : lexCommand L (c :: rest ++ trailing t) = some x := by
  obtain ⟨⟨tag, place⟩, htag, h⟩ := Option.bind_eq_some_iff.mp h
  obtain ⟨place', htag', hplace⟩ := lexTag_trailing (decide (Ascii (c :: rest ++ trailing t))) hc htag
  rw [lexCommand, htag']
  exact lexUntagged_trailing hL ht hplace h

theorem lexDirective_trailing (hL : L.SkipsComments) (ht : '\n' ∉ t) {c : Char} {rest : List Char} {x : Lexed}
    (h : lexDirective L (c :: rest) = some x) : lexDirective L (c :: rest ++ trailing t) = some x := by
  obtain ⟨⟨name, place⟩, hname, h⟩ := Option.bind_eq_some_iff.mp h
  obtain ⟨arguments, harguments, h⟩ := Option.bind_eq_some_iff.mp h
  obtain ⟨place', hname', hplace⟩ := lexName_trailing (decide (Ascii (c :: rest ++ trailing t))) t hname
  have harguments' := lexArguments_trailing hL ht hplace harguments
  rw [lexDirective, List.cons_append, List.tail_cons]
  rw [List.tail_cons, List.cons_append] at hname'
  rw [List.cons_append] at harguments'
  simpa [hname', harguments'] using h

end

/-! ### Blanks -/

section
variable {L} {t cs : List Char}

theorem trimEnd_append_cons {c : Char} (front t : List Char) (hc : isWhitespace c = false) :
    trimEnd (front ++ c :: t) = front ++ c :: trimEnd t := by
  induction t using List.reverseRecOn with
  | nil => exact trimEnd_append_of_last front hc
  | append_singleton t d ih =>
    have happend : front ++ c :: (t ++ [d]) = front ++ c :: t ++ [d] := by simp
    rw [happend]
    unfold trimEnd at ih ⊢
    rw [List.rdropWhile_concat, List.rdropWhile_concat]
    split_ifs
    · exact ih
    · exact happend.symm

theorem trimEnd_trailing (front t : List Char) : trimEnd (front ++ trailing t) = front ++ trailing (trimEnd t) := by
  rw [trailing, List.append_cons, trimEnd_append_cons _ t (by decide), ← List.append_cons]
  rfl

theorem trim_trailing (t : List Char) : trim (trailing t) = '#' :: trimEnd t :=
  trimEnd_append_cons [] t (by decide)

/-- a text that does not end with a blank -/
def EndsFirm (cs : List Char) : Prop := trimEnd cs = cs

instance (cs : List Char) : Decidable (EndsFirm cs) := inferInstanceAs (Decidable (trimEnd cs = cs))

theorem endsFirm_iff : EndsFirm cs ↔ ∀ c, cs.getLast? = some c → isWhitespace c = false := by
  unfold EndsFirm trimEnd
  rw [List.rdropWhile_eq_self_iff]
  constructor
  · intro h c hc
    have hne : cs ≠ [] := fun hnil => absurd hc (by simp [hnil])
    obtain rfl := Option.some.inj ((List.getLast?_eq_some_getLast hne).symm.trans hc)
    simpa using h hne
  · intro h hne
    simpa using h _ (List.getLast?_eq_some_getLast hne)

/-- the end of a text that does not end with a blank -/
theorem EndsFirm.suffix {back : List Char} (h : EndsFirm cs) (hback : back <:+ cs) : EndsFirm back := by
  obtain ⟨front, rfl⟩ := hback
  rw [endsFirm_iff] at h ⊢
  intro c hc
  exact h c (by rw [List.getLast?_append, hc]; rfl)

theorem EndsFirm.trim_eq (h : EndsFirm cs) : trim cs = trimStart cs :=
  h.suffix (List.dropWhile_suffix isWhitespace)

theorem EndsFirm.trimStart_ne (h : EndsFirm cs) (hne : cs ≠ []) : trimStart cs ≠ [] := by
  intro hnil
  have hall := List.dropWhile_eq_nil_iff.mp hnil
  have hlast := endsFirm_iff.1 h _ (List.getLast?_eq_some_getLast hne)
  exact absurd (hall _ (List.getLast_mem hne)) (by simp [hlast])

theorem trim_append_trailing (h : EndsFirm cs) (hne : cs ≠ []) :
    trim (cs ++ trailing t) = trim cs ++ trailing (trimEnd t) := by
  have hstart : trimStart (cs ++ trailing t) = trimStart cs ++ trailing t := by
    unfold trimStart
    have hstart : ¬ (cs.dropWhile isWhitespace).isEmpty = true := by
      rw [List.isEmpty_iff]
      exact h.trimStart_ne hne
    rw [List.dropWhile_append, if_neg hstart]
  rw [trim, hstart, trimEnd_trailing, h.trim_eq]

theorem lexLine_eq {c : Char} {rest : List Char} (h : trim cs = c :: rest) : lexLine L cs =
    if c = '#' then some ⟨none, .none_⟩
    else if c = '!' then lexDirective L (c :: rest) else lexCommand L (c :: rest) := by
  rw [lexLine, h]
  simp

/-- **A comment behind a line.** A line that is read says the same with a comment behind it. -/
theorem lexLine_comment (hL : L.SkipsComments) (ht : '\n' ∉ t) (hfirm : EndsFirm cs) {x : Lexed}
    (h : lexLine L cs = some x) : lexLine L (cs ++ trailing t) = some x := by
  by_cases hne : cs = []
  · subst hne
    rw [lexLine_nil] at h
    rw [List.nil_append, ← h, lexLine, if_pos (Or.inr (by rw [trim_trailing]; rfl))]
  have htrim : trim (cs ++ trailing t) = trim cs ++ trailing (trimEnd t) := trim_append_trailing hfirm hne
  have ht' : '\n' ∉ trimEnd t := fun hmem => ht ((List.rdropWhile_prefix _ _).subset hmem)
  obtain ⟨c, rest, hc⟩ := List.exists_cons_of_ne_nil (hfirm.trim_eq ▸ hfirm.trimStart_ne hne : trim cs ≠ [])
  have hfirst : isWhitespace c = false := by
    have hhead := List.head?_dropWhile_not isWhitespace cs
    rw [show cs.dropWhile isWhitespace = c :: rest by rw [← hc, hfirm.trim_eq]; rfl] at hhead
    simpa using hhead
  have hblank : c ≠ ' ' := by
    rintro rfl
    exact absurd hfirst (by decide)
  rw [lexLine_eq hc] at h
  rw [lexLine_eq (by rw [htrim, hc]; rfl)]
  by_cases hcomment : c = '#'
  · rw [if_pos hcomment] at h ⊢
    exact h
  rw [if_neg hcomment] at h ⊢
  by_cases hdirective : c = '!'
  · rw [if_pos hdirective] at h ⊢
    exact lexDirective_trailing hL ht' h
  · rw [if_neg hdirective] at h ⊢
    exact lexCommand_trailing hL ht' hblank h

/-- a line that is read, and is no comment, gives the same with a comment behind it, and what stands in the comment
behind semicolons -/
theorem sayLine_comment (hL : L.SkipsComments) (ht : '\n' ∉ t) (hfirm : EndsFirm cs) (hcomment : cs.head? ≠ some '#')
    {x : List Lexed} (h : sayLine L cs = some x) (hne : cs ≠ []) :
    sayLine L (cs ++ trailing t) = (sayParts L (t.splitOn ';').tail).map (x ++ ·) := by
  obtain ⟨init, last, hparts, hsuffix, happend⟩ := Core.exists_splitOn_append ';' cs
  obtain ⟨first, rest, hsplit⟩ := List.exists_cons_of_ne_nil (List.splitOn_ne_nil ';' t)
  have htrailing : (trailing t).splitOn ';' = trailing first :: rest := by
    rw [trailing, List.splitOn_cons_eq_if_modifyHead, if_neg (by decide), List.splitOn_cons_eq_if_modifyHead,
      if_neg (by decide), hsplit]
    rfl
  have hfirst : '\n' ∉ first := fun hmem =>
    ht (Core.mem_of_mem_splitOn (hsplit ▸ List.mem_cons_self : first ∈ t.splitOn ';') hmem)
  rw [sayLine, if_neg hcomment, hparts, sayParts_append] at h
  obtain ⟨front, hfront, h⟩ := Option.bind_eq_some_iff.mp h
  obtain ⟨y, hy, rfl⟩ := Option.map_eq_some_iff.mp h
  rw [sayParts_singleton] at hy
  obtain ⟨said, hsaid, rfl⟩ := Option.map_eq_some_iff.mp hy
  have hlast := lexLine_comment hL hfirst (hfirm.suffix hsuffix) hsaid
  rw [sayLine, List.head?_append_of_ne_nil _ hne, if_neg hcomment, happend, htrailing, sayParts_append, hfront, hsplit]
  show (sayParts L ((last ++ trailing first) :: rest)).map (front ++ ·) = _
  rw [sayParts_cons, hlast, List.tail_cons]
  cases sayParts L rest <;> simp

theorem silent_iff {location : LocationInfo} (htag : location.tag = none) (part : List Char) :
    Silent L location part ↔ ∃ x, lexLine L part = some x ∧ x.toList = [] := by
  have hparse := parseLine_toOption L part htag
  unfold Silent Lexed.toList
  cases hline : parseLine L part location with
  | error e =>
    rw [hline] at hparse
    have hnone : lexLine L part = none := Option.map_eq_none_iff.mp hparse.symm
    simp [hnone]
  | ok i =>
    rw [hline] at hparse
    obtain ⟨x, hx, rfl⟩ := Option.map_eq_some_iff.mp hparse.symm
    rw [hx]
    simp [Lexed.at]

theorem sayParts_eq_nil_iff {location : LocationInfo} (htag : location.tag = none) (parts : List (List Char)) :
    sayParts L parts = some [] ↔ ∀ part ∈ parts, Silent L location part := by
  induction parts with
  | nil => simp [sayParts]
  | cons part parts ih =>
    rw [List.forall_mem_cons, ← ih, silent_iff htag, sayParts_cons]
    cases lexLine L part with
    | none => simp
    | some x => cases sayParts L parts <;> simp

end

/-! ## Semicolons inside quotes -/

/-- where a text is, as `shlex` reads it -/
inductive Quoting where
  | between
  | word
  | escaped
  | double
  | doubleEscaped
  | single
  | comment
deriving DecidableEq, Repr

def Quoting.nextInWord (c : Char) : Quoting :=
  if c = '"' then .double
  else if c = '\x27' then .single
  else if c = '\\' then .escaped
  else if c = ' ' ∨ c = '\t' ∨ c = ';' then .between
  else .word

def Quoting.next : Quoting → Char → Quoting
  | .between, c => if c = '#' then .comment else nextInWord c
  | .word, c => nextInWord c
  | .escaped, _ => .word
  | .double, c => if c = '"' then .word else if c = '\\' then .doubleEscaped else .double
  | .doubleEscaped, _ => .double
  | .single, c => if c = '\x27' then .word else .single
  | .comment, _ => .comment

def Quoting.quoted : Quoting → Bool
  | .double | .doubleEscaped | .single => true
  | _ => false

/-- the parts of a text between the semicolons that are not inside quotes -/
def unquotedParts : Quoting → List Char → List (List Char)
  | _, [] => [[]]
  | q, c :: cs =>
    if c = ';' ∧ q.quoted = false then [] :: unquotedParts (q.next c) cs
    else (unquotedParts (q.next c) cs).modifyHead (c :: ·)

/-- the commands of a line if a semicolon inside quotes does not end one -/
def unquotedLines (line : List Char) : List (List Char) :=
  match unquotedParts .between line with
  | [part] => [part]
  | parts => (parts.map trim).filter (· ≠ [])

/-- no semicolon of the text stands inside quotes -/
def NoneQuoted (q : Quoting) (cs : List Char) : Prop :=
  ∀ front back, cs = front ++ ';' :: back → (front.foldl Quoting.next q).quoted = false

section
variable {q : Quoting} {c : Char} {cs line part : List Char}

theorem unquotedParts_ne_nil (q : Quoting) (cs : List Char) : unquotedParts q cs ≠ [] := by
  induction cs generalizing q with
  | nil => simp [unquotedParts]
  | cons c cs ih =>
    rw [unquotedParts]
    split_ifs
    · simp
    · obtain ⟨first, rest, h⟩ := List.exists_cons_of_ne_nil (ih (q.next c))
      rw [h]
      simp

theorem NoneQuoted.tail (h : NoneQuoted q (c :: cs)) : NoneQuoted (q.next c) cs := by
  intro front back hcs
  exact h (c :: front) back (by rw [hcs]; rfl)

theorem unquotedParts_eq (h : NoneQuoted q cs) : unquotedParts q cs = cs.splitOn ';' := by
  induction cs generalizing q with
  | nil => simp [unquotedParts]
  | cons c cs ih =>
    rw [unquotedParts, ih h.tail, List.splitOn_cons_eq_if_modifyHead]
    by_cases hc : c = ';'
    · have hq : q.quoted = false := h [] cs (by rw [hc]; rfl)
      simp [hc, hq]
    · simp [hc]

/-- a semicolon inside quotes is kept in a part -/
theorem exists_mem_unquotedParts (h : ¬ NoneQuoted q cs) : ∃ part ∈ unquotedParts q cs, ';' ∈ part := by
  induction cs generalizing q with
  | nil => exact absurd (fun front back hcs => absurd hcs (by simp)) h
  | cons c cs ih =>
    obtain ⟨first, rest, hparts⟩ := List.exists_cons_of_ne_nil (unquotedParts_ne_nil (q.next c) cs)
    rw [unquotedParts]
    by_cases hhere : c = ';' ∧ q.quoted = true
    · rw [if_neg (by simp [hhere.2]), hparts]
      exact ⟨c :: first, List.mem_cons_self, hhere.1 ▸ List.mem_cons_self⟩
    · have hlater : ¬ NoneQuoted (q.next c) cs := by
        intro hnone
        refine h fun front back hcs => ?_
        cases front with
        | nil =>
          obtain ⟨rfl, rfl⟩ := List.cons.inj hcs
          simpa using hhere
        | cons d front =>
          obtain ⟨rfl, rfl⟩ := List.cons.inj hcs
          exact hnone front back rfl
      obtain ⟨part, hpart, hmem⟩ := ih hlater
      rw [hparts] at hpart ⊢
      split_ifs
      · exact ⟨part, List.mem_cons_of_mem _ hpart, hmem⟩
      · rcases List.mem_cons.mp hpart with rfl | hpart
        · exact ⟨c :: part, List.mem_cons_self, List.mem_cons_of_mem _ hmem⟩
        · exact ⟨part, List.mem_cons_of_mem _ hpart, hmem⟩

theorem mem_trim (hc : isWhitespace c = false) (h : c ∈ cs) : c ∈ trim cs := by
  obtain ⟨front, back, rfl⟩ := List.append_of_mem h
  have hne : front.dropWhile isWhitespace ++ c :: back = trimStart (front ++ c :: back) := by
    unfold trimStart
    rw [List.dropWhile_append]
    split_ifs with hempty
    · rw [List.isEmpty_iff.mp hempty, List.nil_append, List.dropWhile_cons_of_neg (by simp [hc])]
    · rfl
  rw [trim, ← hne, trimEnd_append_cons _ back hc]
  simp

theorem not_mem_of_mem_splitLines (hsemicolon : ';' ∈ line) (h : part ∈ splitLines line) : ';' ∉ part := by
  rw [splitLines, if_pos hsemicolon] at h
  obtain ⟨part', hpart', rfl⟩ := List.mem_map.mp (List.mem_filter.mp h).1
  have hsub : trim part' ⊆ part' := fun c hc =>
    (List.dropWhile_suffix isWhitespace).subset ((List.rdropWhile_prefix isWhitespace _).subset hc)
  exact fun hmem => Core.not_mem_of_mem_splitOn hpart' (hsub hmem)

/-- a line is split at the semicolons outside of quotes exactly if there are no others -/
theorem splitLines_eq_iff (line : List Char) : splitLines line = unquotedLines line ↔ NoneQuoted .between line := by
  constructor
  · intro h
    by_contra hquoted
    obtain ⟨part, hpart, hmem⟩ := exists_mem_unquotedParts hquoted
    have hsemicolon : ';' ∈ line := by
      by_contra hnone
      exact hquoted fun front back hline => absurd (by rw [hline]; simp) hnone
    have hkept : ∃ part ∈ unquotedLines line, ';' ∈ part := by
      unfold unquotedLines
      split
      · rename_i only honly
        rw [honly] at hpart
        exact ⟨part, hpart, hmem⟩
      · have htrim : ';' ∈ trim part := mem_trim (by decide) hmem
        refine ⟨trim part, List.mem_filter.mpr ⟨List.mem_map_of_mem hpart, ?_⟩, htrim⟩
        simpa using List.ne_nil_of_mem htrim
    obtain ⟨kept, hkept, hmem⟩ := hkept
    rw [← h] at hkept
    exact not_mem_of_mem_splitLines hsemicolon hkept hmem
  · intro h
    rw [splitLines, unquotedLines, unquotedParts_eq h]
    by_cases hsemicolon : ';' ∈ line
    · rw [if_pos hsemicolon]
      split
      · rename_i only honly
        have hline : [';'].intercalate (line.splitOn ';') = line := List.intercalate_splitOn ';'
        have hnot : ';' ∉ only := Core.not_mem_of_mem_splitOn (honly ▸ List.mem_cons_self)
        rw [honly] at hline
        obtain rfl : only = line := by simpa [List.intercalate] using hline
        exact absurd hsemicolon hnot
      · rfl
    · rw [if_neg hsemicolon, List.splitOn_eq_singleton hsemicolon]

end

/-! ## Comments, semicolons and continued lines -/

/-- a text after lines gives nothing: as a line of its own it is a comment, or each of its parts is silent -/
def SilentLine (location : LocationInfo) (line : List Char) : Prop :=
  line.head? = some '#' ∨ ∀ part ∈ line.splitOn ';', Silent L location part

/-- what a script gives with the line that is still continued at its end -/
def wholeOf (location : LocationInfo) (ls : List (List Char)) : Option (List Lexed) := do
  return (← scriptCommands L location ls) ++ (← sayLine L ((keptAfter none ls).getD []))

/-- `l` is the last line of a command, which the script up to it gives -/
structure CommandAt (location : LocationInfo) (before : List (List Char)) (l : List Char) : Prop where
  firm : EndsFirm l
  nonempty : l ≠ []
  complete : ¬ Continued (joinedLine (keptAfter none before) l)
  gives : ∃ front command, scriptCommands L location before = some front ∧
    scriptCommands L location (before ++ [l]) = some (front ++ command) ∧ command ≠ []

/-- when comments, semicolons in quotes and continued lines do what they should -/
structure CommentsAndSeparators (location : LocationInfo) : Prop where
  /-- a comment line may stand anywhere between commands exactly if it does not end with a backslash -/
  line : ∀ c, IsComment c → ((∀ before after, keptAfter none before = none →
      scriptCommands L location (before ++ c :: after) = scriptCommands L location (before ++ after)) ↔
    ¬ Continued (trim c))
  /-- after lines that are read, any such comment line may stand exactly if the last of them is not continued, or with
  an empty text -/
  place : ∀ before, scriptCommands L location before ≠ none → ((∀ c after, IsComment c → ¬ Continued (trim c) →
      scriptCommands L location (before ++ c :: after) = scriptCommands L location (before ++ after)) ↔
    keptAfter none before = none ∨ keptAfter none before = some [])
  /-- a comment may stand behind a command exactly if it does not end with a backslash and has nothing behind its
  semicolons -/
  behind : ∀ before l t, CommandAt L location before l → '\n' ∉ t → ((∀ after,
      scriptCommands L location (before ++ (l ++ trailing t) :: after) =
        scriptCommands L location (before ++ l :: after)) ↔
    ¬ Continued t ∧ ∀ part ∈ ((trimEnd t).splitOn ';').tail, Silent L location part)
  /-- semicolons split a line only outside of quotes exactly if none is inside -/
  quoted : ∀ line, splitLines line = unquotedLines line ↔ NoneQuoted .between line
  /-- no line of a script that is read is dropped exactly if what is kept at its end gives nothing -/
  kept : ∀ ls, scriptCommands L location ls ≠ none → (scriptCommands L location ls = wholeOf L location ls ↔
    ∀ kept ∈ keptAfter none ls, SilentLine L location kept)

section
variable {L}

theorem comment_line_iff (root source : Option String) {c : List Char} (hc : IsComment c) :
    (∀ before after, keptAfter none before = none →
      scriptCommands L (scriptLocation root source) (before ++ c :: after) =
        scriptCommands L (scriptLocation root source) (before ++ after)) ↔ ¬ Continued (trim c) := by
  simp only [scriptCommands_eq]
  constructor
  · intro h hcontinued
    have hend := h [] [endLine] rfl
    rw [List.nil_append, List.nil_append, sayLines_continued_comment hc hcontinued] at hend
    exact sayLines_endLine_ne hend.symm
  · intro hcontinued before after hkept
    rw [sayLines_append, sayLines_append, hkept, sayLines_comment hc hcontinued]

theorem comment_place_iff (root source : Option String) {before : List (List Char)}
    (hread : scriptCommands L (scriptLocation root source) before ≠ none) :
    (∀ c after, IsComment c → ¬ Continued (trim c) →
      scriptCommands L (scriptLocation root source) (before ++ c :: after) =
        scriptCommands L (scriptLocation root source) (before ++ after)) ↔
        keptAfter none before = none ∨ keptAfter none before = some [] := by
  simp only [scriptCommands_eq, sayLines_append] at hread ⊢
  obtain ⟨front, hfront⟩ := Option.ne_none_iff_exists'.mp hread
  simp only [hfront, Option.bind_some]
  have hcancel : ∀ x y : Option (List Lexed), x.map (front ++ ·) = y.map (front ++ ·) ↔ x = y := fun x y =>
    (Option.map_injective fun _ _ h => List.append_cancel_left h).eq_iff
  simp only [hcancel]
  constructor
  · intro h
    cases hkept : keptAfter none before with
    | none => exact Or.inl rfl
    | some m =>
      refine Or.inr (congrArg some ?_)
      by_contra hm
      obtain ⟨c, after, hc, hcontinued, hne⟩ := @exists_comment_ne L _ hm
      rw [hkept] at h
      exact hne (h c after hc hcontinued)
  · rintro (hkept | hkept) c after hc hcontinued
    · rw [hkept, sayLines_comment hc hcontinued]
    · rw [hkept, sayLines_kept_nil, sayLines_kept_nil, sayLines_comment hc hcontinued]

theorem joinedLine_trailing (kept : Option (List Char)) {l t : List Char} (h : EndsFirm l) (hne : l ≠ []) :
    joinedLine kept (l ++ trailing t) = joinedLine kept l ++ trailing (trimEnd t) := by
  rw [joinedLine, joinedLine, trim_append_trailing h hne, List.append_assoc]

theorem endsFirm_joinedLine (kept : Option (List Char)) {l : List Char} (h : EndsFirm l) (hne : l ≠ []) :
    joinedLine kept l ≠ [] ∧ EndsFirm (joinedLine kept l) := by
  have htrim : trim l ≠ [] := h.trim_eq ▸ h.trimStart_ne hne
  refine ⟨List.append_ne_nil_of_right_ne_nil _ htrim, endsFirm_iff.2 fun c hc => ?_⟩
  rw [joinedLine, List.getLast?_append_of_ne_nil _ htrim] at hc
  exact endsFirm_iff.1 (trimEnd_trim l) c hc

theorem continued_trailing_iff {front t : List Char} : Continued (front ++ trailing (trimEnd t)) ↔ Continued t := by
  unfold Continued
  rw [trimEnd_trailing, show trimEnd (trimEnd t) = trimEnd t from List.rdropWhile_idempotent isWhitespace t,
    List.getLast?_append_of_ne_nil _ (by simp [trailing]), trailing]
  cases hlast : trimEnd t with
  | nil => simp
  | cons c rest => rw [List.getLast?_cons_cons, List.getLast?_cons_cons]

theorem comment_behind_iff (hL : L.SkipsComments) (root source : Option String) {before : List (List Char)}
    {l t : List Char} (h : CommandAt L (scriptLocation root source) before l) (ht : '\n' ∉ t) :
    (∀ after, scriptCommands L (scriptLocation root source) (before ++ (l ++ trailing t) :: after) =
        scriptCommands L (scriptLocation root source) (before ++ l :: after)) ↔
      ¬ Continued t ∧ ∀ part ∈ ((trimEnd t).splitOn ';').tail, Silent L (scriptLocation root source) part := by
  obtain ⟨hfirm, hne, hcomplete, front, command, hfront, hcommand, hsome⟩ := h
  obtain ⟨hjoined, hends⟩ := endsFirm_joinedLine (keptAfter none before) hfirm hne
  have ht' : '\n' ∉ trimEnd t := fun hmem => ht ((List.rdropWhile_prefix _ _).subset hmem)
  have hcancel : ∀ x y : Option (List Lexed), x.map (front ++ ·) = y.map (front ++ ·) ↔ x = y := fun x y =>
    (Option.map_injective fun _ _ h => List.append_cancel_left h).eq_iff
  simp only [scriptCommands_eq, sayLines_append] at hfront hcommand ⊢
  simp only [hfront, Option.bind_some, hcancel] at hcommand ⊢
  rw [sayLines_line hcomplete] at hcommand
  have hsaid : sayLine L (joinedLine (keptAfter none before) l) = some command := by
    cases hline : sayLine L (joinedLine (keptAfter none before) l) with
    | none => simp [hline] at hcommand
    | some x => simpa [hline, sayLines] using hcommand
  have hcomment : (joinedLine (keptAfter none before) l).head? ≠ some '#' := by
    intro hhead
    rw [sayLine, if_pos hhead] at hsaid
    exact hsome (Option.some.inj hsaid).symm
  have hlonger := sayLine_comment hL ht' hends hcomment hsaid hjoined
  rw [← @sayParts_eq_nil_iff L (scriptLocation root source) rfl]
  simp only [sayLines_line hcomplete, hsaid, Option.bind_some]
  constructor
  · intro h
    have hempty := h []
    have hcontinued : ¬ Continued t := by
      intro hcontinued
      rw [← continued_trailing_iff, ← joinedLine_trailing (keptAfter none before) hfirm hne] at hcontinued
      exact hsome (sayLines_last hcontinued (hempty.trans (by simp [sayLines])))
    refine ⟨hcontinued, ?_⟩
    rw [← continued_trailing_iff, ← joinedLine_trailing (keptAfter none before) hfirm hne] at hcontinued
    rw [sayLines_line hcontinued, joinedLine_trailing _ hfirm hne, hlonger] at hempty
    cases hparts : sayParts L ((trimEnd t).splitOn ';').tail with
    | none => simp [hparts, sayLines] at hempty
    | some x => simpa [hparts, sayLines] using hempty
  · rintro ⟨hcontinued, hparts⟩ after
    rw [← continued_trailing_iff, ← joinedLine_trailing (keptAfter none before) hfirm hne] at hcontinued
    rw [sayLines_line hcontinued, joinedLine_trailing _ hfirm hne, hlonger, hparts]
    simp

theorem kept_line_iff (root source : Option String) {ls : List (List Char)}
    (hread : scriptCommands L (scriptLocation root source) ls ≠ none) :
    scriptCommands L (scriptLocation root source) ls = wholeOf L (scriptLocation root source) ls ↔
      ∀ kept ∈ keptAfter none ls, SilentLine L (scriptLocation root source) kept := by
  obtain ⟨front, hfront⟩ := Option.ne_none_iff_exists'.mp hread
  have hwhole : scriptCommands L (scriptLocation root source) ls = wholeOf L (scriptLocation root source) ls ↔
      sayLine L ((keptAfter none ls).getD []) = some [] := by
    rw [wholeOf, hfront]
    cases sayLine L ((keptAfter none ls).getD []) <;> simp
  have hsilent : ∀ line, sayLine L line = some [] ↔ SilentLine L (scriptLocation root source) line := by
    intro line
    unfold sayLine SilentLine
    rw [← @sayParts_eq_nil_iff L (scriptLocation root source) rfl]
    split_ifs with hcomment
    · exact ⟨fun _ => Or.inl hcomment, fun _ => rfl⟩
    · exact (or_iff_right hcomment).symm
  rw [hwhole]
  cases keptAfter none ls with
  | none =>
    have hnothing : sayLine L [] = some [] := by
      rw [sayLine, if_neg (by simp), List.splitOn_nil, sayParts_singleton, lexLine_nil]
      rfl
    exact ⟨fun _ kept hkept => absurd hkept (by simp), fun _ => hnothing⟩
  | some kept =>
    rw [Option.getD_some, hsilent]
    exact ⟨fun h kept' hkept' => Option.some.inj hkept' ▸ h, fun h => h kept rfl⟩

/-- **Comments, semicolons and continued lines.** With a library that leaves out comments, a comment may be inserted and
deleted exactly where it does not end with a backslash, does not stand inside a command that is continued, and has no
command behind a semicolon; a line is split only outside of quotes exactly if no semicolon is inside; and no line is
dropped exactly if the last one is not continued, or gives nothing. -/
theorem comments_and_separators (hL : L.SkipsComments) (root source : Option String) :
    CommentsAndSeparators L (scriptLocation root source) where
  line _ hc := comment_line_iff root source hc
  place _ hread := comment_place_iff root source hread
  behind _ _ _ h ht := comment_behind_iff hL root source h ht
  quoted line := splitLines_eq_iff line
  kept _ hread := kept_line_iff root source hread

end

/-- words between blanks, up to one that starts with a hash -/
def wordLibraries : Libraries where
  shlex text := some (((split ' ' text).filter (· ≠ "")).takeWhile fun word => word.toList.head? ≠ some '#')
  getopts _ args := .ok ⟨args, fun _ => []⟩
  format _ := ""
  parseFloat _ := none
  invalidValue _ := ""
  evaluate _ _ := none
  quoteLine _ _ := none

theorem wordLibraries_skipsComments : wordLibraries.SkipsComments where
  comment text t arguments _ h := by
    obtain rfl := Option.some.inj h
    obtain ⟨first, rest, hsplit⟩ := List.exists_cons_of_ne_nil (List.splitOn_ne_nil ' ' t)
    have hparts : split ' ' (String.ofList (text ++ trailing t)) =
        split ' ' (String.ofList text) ++ String.ofList ('#' :: first) :: rest.map String.ofList := by
      simp only [split, String.toList_ofList, trailing]
      rw [List.splitOn_append_cons_self, List.splitOn_cons_eq_if_modifyHead, if_neg (by decide), hsplit]
      simp
    show some (((split ' ' (String.ofList (text ++ trailing t))).filter (· ≠ "")).takeWhile _) = _
    rw [hparts, List.filter_append, List.filter_cons_of_pos (by simp), List.takeWhile_append]
    split_ifs with hlength
    · have hall := (List.takeWhile_prefix _).eq_of_length hlength
      rw [List.takeWhile_cons_of_neg (by simp), List.append_nil]
      exact congrArg some hall.symm
    · rfl

theorem comments_and_separators_words : CommentsAndSeparators wordLibraries (scriptLocation none none) :=
  comments_and_separators wordLibraries_skipsComments none none

/-- a comment takes the next line with it, a comment gives a command, a quoted text is split, a line is dropped -/
theorem comments_matter :
    scriptCommands wordLibraries (scriptLocation none none) ["end".toList] =
        some [⟨none, .command ⟨some "end", some [], none⟩⟩] ∧
      scriptCommands wordLibraries (scriptLocation none none) ["# a\\".toList, "end".toList] = some [] ∧
      scriptCommands wordLibraries (scriptLocation none none) ["end # a; end".toList] =
        some [⟨none, .command ⟨some "end", some [], none⟩⟩, ⟨none, .command ⟨some "end", some [], none⟩⟩] ∧
      splitLines "print \"a;b\"".toList = ["print \"a".toList, "b\"".toList] ∧
      scriptCommands wordLibraries (scriptLocation none none) ["end \\".toList] = some [] := by
  decide

end BigWorlds.Machine
