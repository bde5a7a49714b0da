/-
When executing a script panics (`machine/exec.rs`, `machine/cmd/`).

A command panics on a full call stack, on more than ten `else` lines, on a procedure that is not defined, on a condition
that is not read, and, on one line, where it unwraps what the worker answers or what a library makes of its arguments.

- `execute_eq_none_iff`: in a loaded script, on a stack that execution can have, a command panics exactly if it is not
  `Safe`;
- `never_panics_iff`: a run of a script does not panic, in any of its turns, exactly if all its commands are safe where
  they are executed;
- `execution_panics`: an undefined procedure, a condition the worker refuses to read, and a procedure that calls itself.
-/
import BigWorlds.Machine.Actions
import BigWorlds.Machine.Script

namespace BigWorlds.Machine

open BigWorlds.Core (Along bind_eq_ok run split utf8Length insertStr insertStr_eq_some_iff)

variable (L : Libraries)

/-! ## Safe commands -/

/-- a value or an error, as reading a variable comes back with -/
def Answer.IsRead : Answer → Prop
  | .var _ | .failed | .refused => True
  | .empty | .other => False

/-- each text is inserted where a character of the text so far starts, or at its end -/
def PrintFmt.Fits (ans : Answers) : List (ℕ × Address) → (n added : ℕ) → List Char → Prop
  | [], _, _, _ => True
  | (index, _) :: inserts, n, added, output =>
    match ans n with
    | .var v =>
      ∃ front back, output = front ++ back ∧ utf8Length front = index + added ∧
        Fits ans inserts (n + 1) (added + utf8Length (v.toString L.format).toList)
          (front ++ (v.toString L.format).toList ++ back)
    | .failed | .refused => Fits ans inserts (n + 1) added output
    | .empty | .other => False

/-- a full target; a value, or a source that is read; and the variable is set -/
def Set.Safe (cmd : Set) (ans : Answers) : Prop :=
  (∃ addr, cmd.target = .address addr) ∧
    match cmd.source with
    | .value _ => ans 0 = .empty
    | .address _ | .localAddress _ => (∃ v, ans 0 = .var v) ∧ ans 1 = .empty

/-- the arguments are read, up to the first error; if there is none, the expression has a value, of the type of the
output if there is one, which is then set -/
def Eval.Safe (cmd : Eval) (ans : Answers) : Prop :=
  (∀ i < cmd.args.length, (∀ j < i, ∃ v, ans j = .var v) → (ans i).IsRead) ∧
    ∀ ns, Eval.values ans cmd.args 0 = some (some ns) →
      ∃ val, L.evaluate cmd.expr ns = some val ∧
        ∀ out, cmd.out = some out →
          (∃ v, Var.fromStrTyped L.parseFloat val out.varType = .ok v) ∧ ans cmd.args.length = .empty

def Action.Safe (ans : Answers) : Action → Prop
  | .printFmt cmd => PrintFmt.Fits L ans cmd.inserts 0 0 cmd.fmt.toList
  | .set cmd => cmd.Safe ans
  | .spawn _ => ans 0 = .empty ∨ ans 0 = .failed ∨ ans 0 = .refused
  | .registerEntityPrefab _ => ans 0 ≠ .failed
  | .eval cmd => cmd.Safe L ans
  | .goto _ | .invoke _ | .query | .registerTrigger _ => True

/-- room for a frame on the call stack -/
def HasRoom (stack : List CallInfo) : Prop := stack.length < callStackCapacity

def If.Safe (cmd : If) (w : World) (stack : List CallInfo) : Prop :=
  cmd.elseLines.length ≤ 10 ∧
    ∃ b, cmd.condition.evaluate w = some b ∧ (HasRoom stack ∨ b = false ∧ cmd.elseLines = [])

/-- the command does not panic with these answers, on this stack -/
def Command.Safe (logic : Logic) (ans : Answers) (stack : List CallInfo) : Command → Prop
  | .oneLine cmd => ∀ action, cmd.action L .empty = .ok action → action.Safe L ans
  | .if_ cmd => cmd.Safe (L.world ans) stack
  | .call cmd => (∃ lines, logic.procedures.lookup cmd.procName = some lines) ∧ HasRoom stack
  | .loop _ | .component _ => HasRoom stack
  | .registerVar _ | .machine _ | .state _ | .else_ | .end_ | .forIn _ | .break_ | .procedure _ => True

/-! ## Commands on one line -/

variable {ans : Answers}

/-- a command that does not panic ends with or without an error -/
def Ends (r : Ran) : Prop := ∃ err, r = some err

theorem not_ends_iff {r : Ran} : ¬ Ends r ↔ r = none := by
  cases r with
  | none => exact ⟨fun _ => rfl, fun _ ⟨_, h⟩ => absurd h (by simp)⟩
  | some err => exact ⟨fun h => absurd ⟨err, rfl⟩ h, fun h => absurd h (by simp)⟩

theorem PrintFmt.insertAll_iff {inserts : List (ℕ × Address)} {n added : ℕ} {output : List Char} :
    (∃ out, insertAll L ans inserts n added output = some out) ↔ Fits L ans inserts n added output := by
  induction inserts generalizing n added output with
  | nil => exact ⟨fun _ => trivial, fun _ => ⟨output, rfl⟩⟩
  | cons insert inserts ih =>
    obtain ⟨index, addr⟩ := insert
    rw [insertAll, Fits]
    cases hans : ans n with
    | failed | refused => exact ih
    | empty | other => exact ⟨fun ⟨_, h⟩ => absurd h (by rintro ⟨⟩), False.elim⟩
    | var v =>
      show (∃ out, ((insertStr output (index + added) (v.toString L.format).toList).bind fun output =>
        insertAll L ans inserts (n + 1) (added + utf8Length (v.toString L.format).toList) output) = some out) ↔ _
      constructor
      · intro ⟨out, h⟩
        obtain ⟨output', houtput, h⟩ := Option.bind_eq_some_iff.mp h
        obtain ⟨front, back, rfl, hlen, rfl⟩ := insertStr_eq_some_iff.mp houtput
        exact ⟨front, back, rfl, hlen, ih.mp ⟨out, h⟩⟩
      · intro ⟨front, back, houtput, hlen, hfits⟩
        obtain ⟨out, hout⟩ := ih.mpr hfits
        have hinsert : insertStr output (index + added) (v.toString L.format).toList = some _ :=
          insertStr_eq_some_iff.mpr ⟨front, back, houtput, hlen, rfl⟩
        exact ⟨out, Option.bind_eq_some_iff.mpr ⟨_, hinsert, hout⟩⟩

theorem Answer.setVar_eq_some_iff {a : Answer} : (∃ u, a.setVar = some u) ↔ a = .empty := by
  cases a <;> simp [setVar]

theorem Answer.getVar_eq_value_iff {a : Answer} : (∃ v, a.getVar = some (some v)) ↔ ∃ v, a = .var v := by
  cases a <;> simp [getVar]

/-- a variable is read and another one set -/
theorem ends_read_set_iff :
    Ends (do
        let _ ← (← (ans 0).getVar)
        let _ ← (ans 1).setVar
        return false) ↔
      (∃ v, ans 0 = .var v) ∧ ans 1 = .empty := by
  rw [← Answer.getVar_eq_value_iff, ← Answer.setVar_eq_some_iff]
  constructor
  · intro ⟨err, h⟩
    obtain ⟨o, ho, hread⟩ := Option.bind_eq_some_iff.mp h
    obtain ⟨v, rfl, hset⟩ := Option.bind_eq_some_iff.mp hread
    obtain ⟨u, hu, _⟩ := Option.bind_eq_some_iff.mp hset
    exact ⟨⟨v, ho⟩, u, hu⟩
  · intro ⟨⟨v, hv⟩, u, hu⟩
    exact ⟨false, by simp [hv, hu]⟩

theorem Set.ends_iff {cmd : Set} : Ends (cmd.execute ans) ↔ cmd.Safe ans := by
  obtain ⟨target, source, out⟩ := cmd
  cases target with
  | localAddress addr => exact ⟨fun ⟨_, h⟩ => absurd h (by rintro ⟨⟩), fun ⟨⟨_, h⟩, _⟩ => absurd h (by rintro ⟨⟩)⟩
  | address addr =>
    have htarget : (∃ a, Target.address addr = .address a) := ⟨addr, rfl⟩
    cases source with
    | value v =>
      constructor
      · intro ⟨err, h⟩
        obtain ⟨u, hu, _⟩ := Option.bind_eq_some_iff.mp h
        exact ⟨htarget, Answer.setVar_eq_some_iff.1 ⟨u, hu⟩⟩
      · intro ⟨_, h⟩
        obtain ⟨u, hu⟩ := Answer.setVar_eq_some_iff.2 h
        exact ⟨false, Option.bind_eq_some_iff.mpr ⟨u, hu, rfl⟩⟩
    | address a | localAddress a => exact Iff.trans ends_read_set_iff (and_iff_right htarget).symm

theorem Spawn.ends_iff (cmd : Spawn) :
    Ends (cmd.execute ans) ↔ ans 0 = .empty ∨ ans 0 = .failed ∨ ans 0 = .refused := by
  unfold Spawn.execute Ends
  cases ans 0 <;> simp

theorem RegisterEntityPrefab.ends_iff (cmd : RegisterEntityPrefab) : Ends (cmd.execute ans) ↔ ans 0 ≠ .failed := by
  unfold RegisterEntityPrefab.execute Ends
  cases ans 0 <;> simp

/-- the arguments from the `n`th answer on are read, up to the first error -/
theorem Eval.values_iff {args : List (String × Address)} {n : ℕ} :
    (∃ r, Eval.values ans args n = some r) ↔
      ∀ i < args.length, (∀ j < i, ∃ v, ans (n + j) = .var v) → (ans (n + i)).IsRead := by
  induction args generalizing n with
  | nil => exact ⟨fun _ i hi => absurd hi (Nat.not_lt_zero i), fun _ => ⟨_, rfl⟩⟩
  | cons arg args ih =>
    obtain ⟨name, addr⟩ := arg
    rw [Eval.values]
    cases hans : ans n with
    | failed | refused =>
      refine ⟨fun _ i _ hbefore => ?_, fun _ => ⟨_, rfl⟩⟩
      cases i with
      | zero => rw [Nat.add_zero, hans]; trivial
      | succ i =>
        obtain ⟨v, hv⟩ := hbefore 0 (Nat.succ_pos i)
        rw [Nat.add_zero, hans] at hv
        exact absurd hv (by rintro ⟨⟩)
    | empty | other =>
      refine ⟨fun ⟨_, h⟩ => absurd h (by rintro ⟨⟩), fun h => ?_⟩
      have hread := h 0 (Nat.succ_pos _) fun j hj => absurd hj (Nat.not_lt_zero j)
      rw [Nat.add_zero, hans] at hread
      exact hread.elim
    | var v =>
      have hrest : (∃ r, ((Eval.values ans args (n + 1)).bind fun ns => some (ns.map ((name, v) :: ·))) = some r) ↔
          ∃ r, Eval.values ans args (n + 1) = some r := by
        cases Eval.values ans args (n + 1) <;> simp
      refine hrest.trans (ih.trans ?_)
      constructor
      · intro h i hi hbefore
        cases i with
        | zero => rw [Nat.add_zero, hans]; trivial
        | succ i =>
          have hread := h i (Nat.lt_of_succ_lt_succ hi) fun j hj => by
            have := hbefore (j + 1) (Nat.succ_lt_succ hj)
            rwa [show n + (j + 1) = n + 1 + j by omega] at this
          rwa [show n + (i + 1) = n + 1 + i by omega]
      · intro h i hi hbefore
        have hread := h (i + 1) (Nat.succ_lt_succ hi) fun j hj => by
          cases j with
          | zero => exact ⟨v, by rw [Nat.add_zero, hans]⟩
          | succ j =>
            have := hbefore j (Nat.lt_of_succ_lt_succ hj)
            rwa [show n + (j + 1) = n + 1 + j by omega]
        rwa [show n + 1 + i = n + (i + 1) by omega]

theorem Eval.finish_ends_iff {cmd : Eval} {val : String} :
    Ends (cmd.finish L ans val) ↔ ∀ out, cmd.out = some out →
      (∃ v, Var.fromStrTyped L.parseFloat val out.varType = .ok v) ∧ ans cmd.args.length = .empty := by
  unfold Eval.finish
  cases cmd.out with
  | none => exact ⟨fun _ out h => absurd h (by rintro ⟨⟩), fun _ => ⟨false, rfl⟩⟩
  | some out =>
    have hout : (∀ out', some out = some out' →
          (∃ v, Var.fromStrTyped L.parseFloat val out'.varType = .ok v) ∧ ans cmd.args.length = .empty) ↔
        (∃ v, Var.fromStrTyped L.parseFloat val out.varType = .ok v) ∧ ans cmd.args.length = .empty :=
      ⟨fun h => h out rfl, fun h out' hout' => by obtain rfl := Option.some.inj hout'; exact h⟩
    rw [hout, ← Answer.setVar_eq_some_iff]
    dsimp only
    cases Var.fromStrTyped L.parseFloat val out.varType with
    | error e =>
      constructor
      · rintro ⟨_, h⟩
        cases h
      · rintro ⟨⟨_, h⟩, _⟩
        cases h
    | ok v =>
      dsimp only
      cases (ans cmd.args.length).setVar with
      | none =>
        constructor
        · rintro ⟨_, h⟩
          cases h
        · rintro ⟨_, _, h⟩
          cases h
      | some u => exact ⟨fun _ => ⟨⟨v, rfl⟩, u, rfl⟩, fun _ => ⟨false, rfl⟩⟩

theorem Eval.ends_iff {cmd : Eval} : Ends (cmd.execute L ans) ↔ cmd.Safe L ans := by
  have hread : (∀ i < cmd.args.length, (∀ j < i, ∃ v, ans j = .var v) → (ans i).IsRead) ↔
      ∃ r, Eval.values ans cmd.args 0 = some r := by
    rw [Eval.values_iff]
    simp only [Nat.zero_add]
  unfold Eval.Safe
  rw [hread]
  unfold Eval.execute
  cases Eval.values ans cmd.args 0 with
  | none => exact ⟨fun ⟨_, h⟩ => absurd h (by rintro ⟨⟩), fun ⟨⟨_, h⟩, _⟩ => absurd h (by rintro ⟨⟩)⟩
  | some r =>
    cases r with
    | none => exact ⟨fun _ => ⟨⟨_, rfl⟩, fun ns h => absurd h (by rintro ⟨⟩)⟩, fun _ => ⟨true, rfl⟩⟩
    | some ns =>
      have hns : (∀ ns', (some (some ns) : Option (Option (List (String × Var)))) = some (some ns') →
          ∃ val, L.evaluate cmd.expr ns' = some val ∧ ∀ out, cmd.out = some out →
            (∃ v, Var.fromStrTyped L.parseFloat val out.varType = .ok v) ∧ ans cmd.args.length = .empty) ↔
          ∃ val, L.evaluate cmd.expr ns = some val ∧ ∀ out, cmd.out = some out →
            (∃ v, Var.fromStrTyped L.parseFloat val out.varType = .ok v) ∧ ans cmd.args.length = .empty :=
        ⟨fun h => h ns rfl, fun h ns' hns' => by obtain rfl := Option.some.inj (Option.some.inj hns'); exact h⟩
      rw [hns, and_iff_right ⟨_, rfl⟩]
      show Ends ((L.evaluate cmd.expr ns).bind (cmd.finish L ans)) ↔ _
      cases L.evaluate cmd.expr ns with
      | none => exact ⟨fun ⟨_, h⟩ => absurd h (by rintro ⟨⟩), fun ⟨_, h, _⟩ => absurd h (by rintro ⟨⟩)⟩
      | some val =>
        rw [Option.bind_some, Eval.finish_ends_iff]
        exact ⟨fun h => ⟨val, rfl, h⟩, fun ⟨val', hval, h⟩ => by obtain rfl := Option.some.inj hval; exact h⟩

theorem PrintFmt.ends_iff {cmd : PrintFmt} : Ends (cmd.execute L ans) ↔ Fits L ans cmd.inserts 0 0 cmd.fmt.toList := by
  rw [← insertAll_iff]
  constructor
  · intro ⟨_, h⟩
    obtain ⟨out, hout, _⟩ := Option.bind_eq_some_iff.mp h
    exact ⟨out, hout⟩
  · intro ⟨out, hout⟩
    exact ⟨false, Option.bind_eq_some_iff.mpr ⟨out, hout, rfl⟩⟩

theorem Action.ends_iff {action : Action} : Ends (action.execute L ans) ↔ action.Safe L ans := by
  cases action with
  | printFmt cmd => exact PrintFmt.ends_iff L
  | set cmd => exact Set.ends_iff
  | spawn cmd => exact Spawn.ends_iff cmd
  | registerEntityPrefab cmd => exact RegisterEntityPrefab.ends_iff cmd
  | eval cmd => exact Eval.ends_iff L
  | goto _ | invoke _ | query | registerTrigger _ => exact ⟨fun _ => trivial, fun _ => ⟨false, rfl⟩⟩

/-- what the first makes, the second makes as well -/
def Extends {α : Type} (x y : Except Failure α) : Prop := ∀ a, x = .ok a → y = .ok a

theorem Extends.refl {α : Type} (x : Except Failure α) : Extends x x := fun _ h => h

theorem Extends.bind {α β : Type} {x y : Except Failure α} {f g : α → Except Failure β} (hxy : Extends x y)
    (hfg : ∀ a, Extends (f a) (g a)) : Extends (x >>= f) (y >>= g) := by
  intro b h
  obtain ⟨a, ha, hb⟩ := bind_eq_ok.mp h
  exact bind_eq_ok.mpr ⟨a, hxy a ha, hfg a b hb⟩

theorem Target.fromStr_extends (s : String) (location : LocationInfo) :
    Extends (Target.fromStr s location) (Target.fromStr s .empty) := by
  intro target h
  unfold Target.fromStr at h ⊢
  split_ifs at h ⊢
  exact h

theorem Source.fromStr_extends (s : String) (targetType : VarType) (location : LocationInfo) :
    Extends (Source.fromStr L s targetType location) (Source.fromStr L s targetType .empty) := by
  intro source h
  unfold Source.fromStr at h ⊢
  split_ifs at h ⊢
  · exact h
  · cases hv : Var.fromStrTyped L.parseFloat s targetType with
    | ok v => rwa [hv] at h
    | error e =>
      rw [hv] at h
      cases e <;> exact absurd h (by simp)

theorem Set.new_extends (args : List String) (location : LocationInfo) :
    Extends (Set.new L args location) (Set.new L args .empty) := by
  unfold Set.new
  refine .bind (.refl _) fun first => ?_
  refine .bind (Target.fromStr_extends first location) fun target => ?_
  refine .bind (.refl _) fun sourceStr => ?_
  exact .bind (Source.fromStr_extends L sourceStr target.varType location) fun source => .refl _

theorem Spawn.ofFree_extends (args : List String) (location : LocationInfo) (n : ℕ) (out : Option ShortLocalAddress) :
    Extends (Spawn.ofFree args out location n) (Spawn.ofFree args out .empty n) := by
  match n with
  | 0 | 1 | 2 => exact .refl _
  | n + 3 => exact fun _ h => absurd h (by simp [Spawn.ofFree])

theorem Libraries.parseAt_extends (location : LocationInfo) (options : List (String × String)) (args : List String) :
    Extends (L.parseAt location options args) (L.parseAt .empty options args) := by
  unfold Libraries.parseAt
  cases L.getopts options args with
  | error text => exact fun _ h => absurd h (by simp)
  | ok matched => exact .refl _

theorem Spawn.new_extends (args : List String) (location : LocationInfo) :
    Extends (Spawn.new L args location) (Spawn.new L args .empty) := by
  unfold Spawn.new
  refine .bind (L.parseAt_extends location [("o", "out")] args) fun matched => ?_
  exact .bind (.refl _) (Spawn.ofFree_extends args location matched.free.length)

/-- the location of a line only stands in its errors -/
theorem OneLine.action_extends (cmd : OneLine) (location : LocationInfo) :
    Extends (cmd.action L location) (cmd.action L .empty) := by
  unfold OneLine.action
  split
  · exact .refl _
  · exact .bind (Set.new_extends L cmd.arguments location) fun _ => .refl _
  · exact .bind (Spawn.new_extends L cmd.arguments location) fun _ => .refl _
  · exact .refl _
  · exact .refl _
  · exact .refl _
  · exact .refl _
  · exact .refl _
  · exact .refl _
  · exact .refl _
  · exact .refl _
  · exact fun _ h => absurd h (by simp)

/-- a line that is accepted has an action, which is what is executed -/
theorem reply_of_accepted {cmd : OneLine} {location : LocationInfo} (h : L.readers.oneLine cmd location = .ok ()) :
    ∃ action, cmd.action L location = .ok action ∧ (L.world ans).reply cmd = action.execute L ans := by
  cases ha : cmd.action L location with
  | error e => exact absurd h (by simp [Libraries.readers, ha, Except.map])
  | ok action =>
    refine ⟨action, rfl, ?_⟩
    unfold Libraries.world
    dsimp only
    rw [cmd.action_extends L location action ha]

theorem reply_eq_none_iff {cmd : OneLine} :
    (L.world ans).reply cmd = none ↔ ¬ ∀ action, cmd.action L .empty = .ok action → action.Safe L ans := by
  unfold Libraries.world
  dsimp only
  cases cmd.action L .empty with
  | error e => exact ⟨fun h => absurd h (by simp), fun h => absurd (fun _ h => absurd h (by simp)) h⟩
  | ok action =>
    rw [← not_ends_iff, Action.ends_iff]
    refine not_congr ⟨fun h action' heq => ?_, fun h => h action rfl⟩
    obtain rfl := Except.ok.inj heq
    exact h

/-! ## Commands -/

/-- no loop over a list is on the stack, as executing `for` does not put one there -/
def NoForIn (stack : List CallInfo) : Prop := ∀ ci, CallInfo.forIn ci ∉ stack

variable {logic : Logic} {stack stack' : List CallInfo} {location : LocationInfo} {w : World} {result : CommandResult}

theorem NoForIn.tail {frame : CallInfo} (h : NoForIn (frame :: stack)) : NoForIn stack :=
  fun ci hci => h ci (List.mem_cons_of_mem _ hci)

theorem NoForIn.push {frame : CallInfo} (h : NoForIn stack) (hframe : ∀ ci, frame ≠ .forIn ci) :
    NoForIn (frame :: stack) := by
  intro ci hci
  rcases List.mem_cons.mp hci with heq | hci
  · exact hframe ci heq.symm
  · exact h ci hci

/-- a frame is pushed where there is room for it -/
theorem push_bind_eq_none_iff {frame : CallInfo} :
    ((push stack frame).bind fun stack => some (result, stack)) = none ↔ ¬ HasRoom stack := by
  unfold push HasRoom
  split_ifs with h
  · exact ⟨fun h => absurd h (by simp), fun hn => absurd h hn⟩
  · exact ⟨fun _ => h, fun _ => rfl⟩

theorem NoForIn.execute {command : Command} {n : ℕ} (h : NoForIn stack) (hline : location.line = some n)
    (he : command.execute logic w location stack = some (result, stack')) : NoForIn stack' := by
  cases command with
  | oneLine cmd =>
    obtain ⟨err, _, heq⟩ := Option.map_eq_some_iff.mp he
    rwa [← (Prod.mk.inj heq).2]
  | registerVar var =>
    rw [← (Prod.mk.inj (Option.some.inj he)).2]
    match stack with
    | [] => exact h
    | .component ci :: rest => exact h.tail.push fun ci h => absurd h (by simp)
    | .procedure _ :: _ | .forIn _ :: _ | .loop _ :: _ | .ifElse _ :: _ => exact h
  | if_ cmd =>
    obtain ⟨arr, _, hcase⟩ := If.execute_cases he
    rcases hcase with ⟨_, _, rfl⟩ | ⟨_, _, _, rfl⟩ | ⟨m, _, _, _, rfl⟩
    · exact h.push fun ci h => absurd h (by simp)
    · exact h
    · exact h.push fun ci h => absurd h (by simp)
  | call cmd =>
    obtain ⟨lines, _, _, rfl⟩ := Call.execute_cases hline he
    exact h.push fun ci h => absurd h (by simp)
  | loop cmd =>
    obtain ⟨_, rfl⟩ := Loop.execute_cases he
    exact h.push fun ci h => absurd h (by simp)
  | component cmd =>
    obtain ⟨_, rfl⟩ := ComponentBlock.execute_cases he
    exact h.push fun ci h => absurd h (by simp)
  | end_ =>
    match stack with
    | [] =>
      obtain ⟨_, rfl⟩ := Prod.mk.inj (Option.some.inj he)
      exact h
    | .forIn ci :: _ => exact absurd List.mem_cons_self (h ci)
    | .procedure ci :: rest =>
      obtain ⟨_, rfl⟩ := End.execute_procedure hline he
      exact h.tail
    | .component ci :: rest =>
      obtain ⟨_, rfl⟩ := Prod.mk.inj (Option.some.inj he)
      exact h.tail
    | .loop ci :: rest | .ifElse ci :: rest =>
      obtain ⟨_, rfl⟩ := Prod.mk.inj (Option.some.inj he)
      exact h
  | else_ | forIn cmd | break_ | machine cmd | procedure cmd | state cmd =>
    obtain ⟨_, rfl⟩ := Prod.mk.inj (Option.some.inj he)
    exact h

theorem If.execute_eq_none_iff {cmd : If} : cmd.execute w stack = none ↔ ¬ cmd.Safe w stack := by
  unfold If.execute If.Safe elseLinesArr
  by_cases harr : cmd.elseLines.length ≤ 10
  · rw [if_pos harr, and_iff_right harr]
    cases hb : cmd.condition.evaluate w with
    | none => exact ⟨fun _ ⟨_, h, _⟩ => absurd h (by simp), fun _ => rfl⟩
    | some b =>
      have hroom : (∃ b', some b = some b' ∧ (HasRoom stack ∨ b' = false ∧ cmd.elseLines = [])) ↔
          HasRoom stack ∨ b = false ∧ cmd.elseLines = [] :=
        ⟨fun ⟨b', hb', h⟩ => by rwa [Option.some.inj hb'], fun h => ⟨b, rfl, h⟩⟩
      rw [hroom]
      cases b with
      | true =>
        rw [or_iff_left fun h => Bool.noConfusion h.1]
        exact push_bind_eq_none_iff
      | false =>
        cases hlines : cmd.elseLines with
        | nil => exact ⟨fun h => absurd h (by simp), fun h => absurd (Or.inr ⟨rfl, rfl⟩) h⟩
        | cons m ms =>
          rw [or_iff_left fun h => List.cons_ne_nil m ms h.2]
          exact push_bind_eq_none_iff
  · rw [if_neg harr]
    exact ⟨fun _ h => harr h.1, fun _ => rfl⟩

theorem Call.execute_eq_none_iff {cmd : Call} {n : ℕ} (hline : location.line = some n) :
    cmd.execute logic location stack = none ↔
      ¬ ((∃ lines, logic.procedures.lookup cmd.procName = some lines) ∧ HasRoom stack) := by
  unfold Call.execute
  rw [hline]
  cases logic.procedures.lookup cmd.procName with
  | none => exact ⟨fun _ ⟨⟨_, h⟩, _⟩ => absurd h (by simp), fun _ => rfl⟩
  | some lines =>
    rw [and_iff_right ⟨lines, rfl⟩]
    exact push_bind_eq_none_iff

/-- `end` does not panic -/
theorem End.execute_ne_none {n : ℕ} (hline : location.line = some n) (h : NoForIn stack) :
    End.execute location stack ≠ none := by
  match stack with
  | [] => exact fun h => absurd h (by simp [End.execute])
  | .forIn ci :: _ => exact absurd List.mem_cons_self (h ci)
  | .procedure ci :: rest => exact fun h => absurd h (by simp [End.execute, hline])
  | .component ci :: rest => exact fun h => absurd h (by simp [End.execute])
  | .loop ci :: rest | .ifElse ci :: rest => exact fun h => absurd h (by simp [End.execute])

/-- **When a command panics.** On a stack that execution can have, it does not exactly if it is safe there. -/
theorem execute_eq_none_iff {command : Command} {n : ℕ} (hline : location.line = some n) (h : NoForIn stack) :
    command.execute logic (L.world ans) location stack = none ↔ ¬ command.Safe L logic ans stack := by
  cases command with
  | oneLine cmd =>
    show ((L.world ans).reply cmd).map _ = none ↔ _
    rw [Option.map_eq_none_iff]
    exact reply_eq_none_iff L
  | if_ cmd => exact If.execute_eq_none_iff
  | call cmd => exact Call.execute_eq_none_iff hline
  | loop cmd | component cmd => exact push_bind_eq_none_iff
  | end_ => exact ⟨fun he => absurd he (End.execute_ne_none hline h), fun hs => absurd trivial hs⟩
  | registerVar _ | machine _ | state _ | else_ | forIn _ | break_ | procedure _ =>
    exact ⟨fun he => absurd he (by rintro ⟨⟩), fun hs => absurd trivial hs⟩

/-! ## Scripts -/

/-- a script that is accepted, with its options, values and expressions read by the libraries -/
structure LoadedScript where
  protos : List CommandPrototype
  locations : ℕ → LocationInfo
  numbered : ∀ n, (locations n).line = some n
  logic : Logic
  accepted : Logic.fromPrototypes L.readers protos locations = .ok logic

namespace LoadedScript

variable {L}

/-- one turn, in which the worker gives the answers -/
def turn (s : LoadedScript L) (stop : ℕ) (c : Config) (ans : Answers) : Config := step s.logic stop c (L.world ans)

/-- the turn executes a command that panics -/
def Panics (s : LoadedScript L) (stop : ℕ) (c : Config) (ans : Answers) : Prop :=
  c.halted = false ∧ ¬ (c.stack = [] ∧ stop ≤ c.line) ∧
    ∃ command, s.logic.commands[c.line]? = some command ∧
      command.execute s.logic (L.world ans) (s.logic.location c.line) c.stack = none

/-- the command that the turn executes, if there is one, is safe -/
def SafeTurn (s : LoadedScript L) (stop : ℕ) (c : Config) (ans : Answers) : Prop :=
  c.halted = false → ¬ (c.stack = [] ∧ stop ≤ c.line) →
    ∀ command, s.logic.commands[c.line]? = some command → command.Safe L s.logic ans c.stack

variable {s : LoadedScript L} {stop n : ℕ} {c : Config}

theorem location_line {command : Command} (h : s.logic.commands[n]? = some command) :
    (s.logic.location n).line = some n := by
  obtain ⟨logic, hl, hlogic⟩ := bind_eq_ok.mp s.accepted
  have hloaded := Loaded.default.load rfl hl
  rw [← Except.ok.inj hlogic] at h ⊢
  have hlt : n < s.protos.length := hloaded.length ▸ (List.getElem?_eq_some_iff.mp h).1
  rw [Logic.location, hloaded.located n hlt]
  exact s.numbered n

theorem noForIn_turn (h : NoForIn c.stack) : NoForIn (s.turn stop c ans).stack := by
  rcases step_cases s.logic stop c (L.world ans) with hstep | ⟨command, result, stack, _, hc, he, hstep⟩
  · rw [turn, hstep]
    exact h
  · rw [turn, hstep]
    exact h.execute (location_line hc) he

theorem not_panics_iff (h : NoForIn c.stack) : ¬ s.Panics stop c ans ↔ s.SafeTurn stop c ans := by
  constructor
  · intro hp hhalted hgoes command hc
    by_contra hsafe
    exact hp ⟨hhalted, hgoes, command, hc, (execute_eq_none_iff L (location_line hc) h).mpr hsafe⟩
  · intro hsafe ⟨hhalted, hgoes, command, hc, he⟩
    exact (execute_eq_none_iff L (location_line hc) h).mp he (hsafe hhalted hgoes command hc)

/-- **Runs without a panic.** No turn of a run panics exactly if every command is safe in the turn that executes it. -/
theorem never_panics_iff (s : LoadedScript L) (stop start : ℕ) (answers : List Answers) :
    (∀ n ans, answers[n]? = some ans → ¬ s.Panics stop (run (s.turn stop) (.start start) (answers.take n)) ans) ↔
      Along (s.turn stop) (s.SafeTurn stop) (.start start) answers := by
  have hinv : ∀ c ans, NoForIn c.stack → NoForIn (s.turn stop c ans).stack := fun c ans => noForIn_turn
  have hpanics : Along (s.turn stop) (fun c ans => ¬ s.Panics stop c ans) (.start start) answers ↔ _ := Core.along_iff
  have hstart : NoForIn (Config.start start).stack := fun ci hci => absurd hci (by simp [Config.start])
  exact hpanics.symm.trans (Along.congr (fun c ans h _ => hinv c ans h) (fun c ans => not_panics_iff) hstart)

end LoadedScript

/-! ## Scripts that panic -/

/-- arguments that are no options, and no values -/
def bareLibraries : Libraries where
  shlex text := some ((split ' ' text).filter (· ≠ ""))
  getopts _ args := .ok ⟨args, fun _ => []⟩
  format _ := ""
  parseFloat _ := none
  invalidValue _ := ""
  evaluate _ _ := none
  quoteLine _ _ := none

def callMissing : LoadedScript bareLibraries where
  protos := script [["call", "missing"]]
  locations := scriptLocations
  numbered := scriptLocations_line
  logic := ⟨"start", [.call ⟨"missing"⟩], [("_main", 0, 1)], [], [scriptLocations 0]⟩
  accepted := by decide

/-- an `if` on a variable -/
def readCondition : LoadedScript bareLibraries where
  protos := script [["if", "gate.door.bool.open"], ["end"]]
  locations := scriptLocations
  numbered := scriptLocations_line
  logic := ⟨"start", [.if_ ⟨.booleanCheck ⟨"gate", "door", .bool, "open"⟩, 0, 1, []⟩, .end_], [("_main", 0, 2)], [],
    [scriptLocations 0, scriptLocations 1]⟩
  accepted := by decide

/-- a procedure that calls itself, and is called -/
def recursion : LoadedScript bareLibraries where
  protos := script [["proc", "again"], ["call", "again"], ["end"], ["call", "again"]]
  locations := scriptLocations
  numbered := scriptLocations_line
  logic := ⟨"start", [.procedure ⟨"again", 0, 2⟩, .call ⟨"again"⟩, .end_, .call ⟨"again"⟩], [("_main", 0, 4)],
    [("again", 0, 2)], [scriptLocations 0, scriptLocations 1, scriptLocations 2, scriptLocations 3]⟩
  accepted := by decide

/-- the frames after `k` calls of the procedure by itself -/
def recursionFrames (k : ℕ) : List CallInfo :=
  List.replicate k (.procedure ⟨1, 0, 2⟩) ++ [.procedure ⟨3, 0, 2⟩]

/-- every call adds a frame, and none is taken away -/
theorem recursion_run (ans : Answers) {k : ℕ} (hk : k < callStackCapacity) :
    run (recursion.turn 4) (.start 0) (List.replicate (k + 2) ans) = ⟨1, recursionFrames k, false⟩ := by
  induction k with
  | zero => rfl
  | succ k ih =>
    have hroom : push (recursionFrames k) (.procedure ⟨1, 0, 2⟩) = some (recursionFrames (k + 1)) :=
      if_pos (by simpa [recursionFrames] using hk)
    have hcall : Command.execute recursion.logic (bareLibraries.world ans) (recursion.logic.location 1)
        (recursionFrames k) (.call ⟨"again"⟩) = some (.jumpToLine 1, recursionFrames (k + 1)) := by
      show ((push _ _).bind fun stack => some (CommandResult.jumpToLine 1, stack)) = _
      rw [hroom]
      rfl
    rw [List.replicate_succ', Core.run_append, ih (Nat.lt_of_succ_lt hk)]
    have hturn : step recursion.logic 4 ⟨1, recursionFrames k, false⟩ (bareLibraries.world ans) = _ :=
      step_of_execute rfl rfl (by simp [recursionFrames]) hcall
    exact hturn

/-- a worker that refuses every request -/
def refusals : Answers := fun _ => .refused

/-- an undefined procedure is called, a condition is not read, and a procedure calls itself 33 times -/
theorem execution_panics :
    callMissing.Panics 1 (.start 0) refusals ∧ readCondition.Panics 2 (.start 0) refusals ∧
      recursion.Panics 4 (run (recursion.turn 4) (.start 0) (List.replicate 33 refusals)) refusals := by
  refine ⟨⟨rfl, by decide, _, rfl, rfl⟩, ⟨rfl, by decide, _, rfl, rfl⟩, ?_⟩
  rw [recursion_run refusals (show 31 < callStackCapacity by decide)]
  exact ⟨rfl, by simp [recursionFrames], _, rfl, rfl⟩

end BigWorlds.Machine
