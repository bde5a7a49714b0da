/-
Bounded queues one behind the other. A writer puts messages into the first queue and waits while it is full; what is
oldest in a queue is passed on to the next one; a reader takes messages from the last. Nothing here is about particular
messages.

- `put_contents`, `shift_contents`, `take_contents`: messages stay in order, and none is lost or doubled;
- `put_of_full`: where all queues are full the writer waits, whatever is passed on;
- `exists_shifts_put`: where one is not, passing on makes room for the writer.
-/
import Mathlib.Data.Nat.Notation
import Mathlib.Tactic.SplitIfs

namespace BigWorlds.Core

variable {α : Type*}

/-! ## Queues -/

/-- a queue that never holds more than its bound, the oldest message first -/
structure Queue (α : Type*) where
  bound : ℕ
  held : List α
  fits : held.length ≤ bound

namespace Queue

def empty (bound : ℕ) : Queue α := ⟨bound, [], Nat.zero_le bound⟩

def put (q : Queue α) (a : α) : Option (Queue α) :=
  if h : q.held.length < q.bound then
    some ⟨q.bound, q.held ++ [a], by rw [List.length_append]; exact h⟩
  else none

def take (q : Queue α) : Option (α × Queue α) :=
  match q with
  | ⟨_, [], _⟩ => none
  | ⟨bound, a :: held, fits⟩ => some (a, ⟨bound, held, Nat.le_of_succ_le fits⟩)

variable {q q' : Queue α} {a : α}

theorem put_eq_some : q.put a = some q' ↔ q'.bound = q.bound ∧ q'.held = q.held ++ [a] := by
  obtain ⟨bound', held', fits'⟩ := q'
  unfold put
  split_ifs with h
  · simp [eq_comm]
  · refine iff_of_false (by simp) ?_
    rintro ⟨rfl, rfl⟩
    rw [List.length_append] at fits'
    exact h fits'

theorem put_isSome : (q.put a).isSome = true ↔ q.held.length < q.bound := by
  unfold put
  split_ifs with h <;> simp [h]

theorem take_eq_some : q.take = some (a, q') ↔ q'.bound = q.bound ∧ q.held = a :: q'.held := by
  obtain ⟨bound, held, fits⟩ := q
  obtain ⟨bound', held', fits'⟩ := q'
  cases held with
  | nil => simp [take]
  | cons b held => simp [take, eq_comm, and_left_comm]

theorem take_isSome_of_pos (h : 0 < q.held.length) : ∃ a rest, q.take = some (a, rest) := by
  obtain ⟨bound, held, fits⟩ := q
  cases held with
  | nil => exact absurd h (Nat.lt_irrefl 0)
  | cons a held => exact ⟨a, _, rfl⟩

end Queue

/-! ## Pipelines -/

/-- the queue of the writer first -/
abbrev Pipeline (α : Type*) := List (Queue α)

namespace Pipeline

def empty (bounds : List ℕ) : Pipeline α := bounds.map Queue.empty

/-- what is on the way, the oldest message first -/
def contents : Pipeline α → List α
  | [] => []
  | q :: p => contents p ++ q.held

def bounds (p : Pipeline α) : List ℕ := p.map Queue.bound

def capacity (p : Pipeline α) : ℕ := (bounds p).foldr (· + ·) 0

/-- how many more messages the queues can hold -/
def room (p : Pipeline α) : ℕ := capacity p - (contents p).length

/-- the writer; `none` while it waits -/
def put : Pipeline α → α → Option (Pipeline α)
  | [], _ => none
  | q :: p, a => (q.put a).map (· :: p)

/-- the oldest message of a queue is passed on to the next one, if there is one and room for it -/
def shift : Pipeline α → ℕ → Pipeline α
  | q :: q' :: p, 0 =>
    match q.take with
    | none => q :: q' :: p
    | some (a, rest) =>
      match q'.put a with
      | none => q :: q' :: p
      | some q'' => rest :: q'' :: p
  | q :: p, i + 1 => q :: shift p i
  | p, _ => p

/-- the reader; `none` while the last queue is empty -/
def take : Pipeline α → Option (α × Pipeline α)
  | [] => none
  | [q] => q.take.map fun r => (r.1, [r.2])
  | q :: q' :: p => (take (q' :: p)).map fun r => (r.1, q :: r.2)

variable {p p' : Pipeline α} {a : α}

theorem contents_cons (q : Queue α) (p : Pipeline α) : contents (q :: p) = contents p ++ q.held := rfl

theorem contents_empty (bounds : List ℕ) : contents (empty (α := α) bounds) = [] := by
  induction bounds with
  | nil => rfl
  | cons bound bounds ih =>
    show contents (empty bounds) ++ [] = []
    rw [ih]
    rfl

theorem bounds_empty (bs : List ℕ) : bounds (empty (α := α) bs) = bs := by
  induction bs with
  | nil => rfl
  | cons b bs ih => exact congrArg (b :: ·) ih

theorem capacity_cons (q : Queue α) (p : Pipeline α) : capacity (q :: p) = q.bound + capacity p := rfl

theorem length_contents_le (p : Pipeline α) : (contents p).length ≤ capacity p := by
  induction p with
  | nil => exact Nat.le_refl 0
  | cons q p ih =>
    rw [contents_cons, capacity_cons, List.length_append, Nat.add_comm]
    exact Nat.add_le_add q.fits ih

theorem length_contents_add_room (p : Pipeline α) : (contents p).length + room p = capacity p :=
  Nat.add_sub_of_le (length_contents_le p)

/-! ## Order -/

theorem put_contents (h : put p a = some p') : contents p' = contents p ++ [a] ∧ bounds p' = bounds p := by
  cases p with
  | nil => cases h
  | cons q p =>
    obtain ⟨q', hq, rfl⟩ := Option.map_eq_some_iff.mp h
    obtain ⟨hbound, hheld⟩ := Queue.put_eq_some.1 hq
    refine ⟨?_, congrArg (· :: bounds p) hbound⟩
    rw [contents_cons, contents_cons, hheld, List.append_assoc]

theorem shift_contents (p : Pipeline α) (i : ℕ) :
    contents (shift p i) = contents p ∧ bounds (shift p i) = bounds p := by
  induction p generalizing i with
  | nil => cases i <;> exact ⟨rfl, rfl⟩
  | cons q p ih =>
    cases i with
    | succ i =>
      have hshift : shift (q :: p) (i + 1) = q :: shift p i := by cases p <;> rfl
      obtain ⟨hcontents, hbounds⟩ := ih i
      rw [hshift, contents_cons, contents_cons, hcontents]
      exact ⟨rfl, congrArg (q.bound :: ·) hbounds⟩
    | zero =>
      cases p with
      | nil => exact ⟨rfl, rfl⟩
      | cons q' p =>
        unfold shift
        cases htake : q.take with
        | none => exact ⟨rfl, rfl⟩
        | some r =>
          obtain ⟨a, rest⟩ := r
          dsimp only
          cases hput : q'.put a with
          | none => exact ⟨rfl, rfl⟩
          | some q'' =>
            obtain ⟨hbound, hheld⟩ := Queue.take_eq_some.1 htake
            obtain ⟨hbound', hheld'⟩ := Queue.put_eq_some.1 hput
            simp only [contents_cons, bounds, hheld, hheld']
            simp [hbound, hbound']

theorem take_contents (h : take p = some (a, p')) : contents p = a :: contents p' ∧ bounds p' = bounds p := by
  induction p generalizing p' with
  | nil => cases h
  | cons q p ih =>
    cases p with
    | nil =>
      obtain ⟨⟨b, q'⟩, hq, heq⟩ := Option.map_eq_some_iff.mp h
      obtain ⟨rfl, rfl⟩ := Prod.mk.inj heq
      obtain ⟨hbound, hheld⟩ := Queue.take_eq_some.1 hq
      simp [contents, bounds, hbound, hheld]
    | cons q' p =>
      obtain ⟨⟨b, rest⟩, hrest, heq⟩ := Option.map_eq_some_iff.mp h
      obtain ⟨rfl, rfl⟩ := Prod.mk.inj heq
      obtain ⟨hcontents, hbounds⟩ := ih hrest
      rw [contents_cons, hcontents]
      exact ⟨rfl, congrArg (q.bound :: ·) hbounds⟩

/-! ## Room -/

theorem put_room (h : put p a = some p') : room p = room p' + 1 := by
  obtain ⟨hcontents, hbounds⟩ := put_contents h
  have hroom := length_contents_add_room p
  have hroom' := length_contents_add_room p'
  rw [hcontents, capacity, hbounds, List.length_append, List.length_singleton] at hroom'
  rw [capacity] at hroom
  omega

theorem shift_room (p : Pipeline α) (i : ℕ) : room (shift p i) = room p := by
  rw [room, room, capacity, capacity, (shift_contents p i).1, (shift_contents p i).2]

theorem put_of_full (h : room p = 0) (a : α) : put p a = none := by
  cases hput : put p a with
  | none => rfl
  | some p' =>
    rw [put_room hput] at h
    cases h

/-- messages are passed on behind a queue as they would be without it -/
theorem foldl_shift_cons (q : Queue α) (p : Pipeline α) (is : List ℕ) :
    (is.map (· + 1)).foldl shift (q :: p) = q :: is.foldl shift p := by
  induction is generalizing p with
  | nil => rfl
  | cons i is ih =>
    have hshift : shift (q :: p) (i + 1) = q :: shift p i := by cases p <;> rfl
    rw [List.map_cons, List.foldl_cons, List.foldl_cons, hshift, ih]

/-- **Room for the writer.** Where the queues are not all full, passing on makes room in the first one. -/
theorem exists_shifts_put (hbounds : ∀ q ∈ p, 0 < q.bound) (hroom : 0 < room p) (a : α) :
    ∃ is : List ℕ, (put (is.foldl shift p) a).isSome = true := by
  induction p generalizing a with
  | nil => cases hroom
  | cons q p ih =>
    by_cases hfirst : q.held.length < q.bound
    · refine ⟨[], ?_⟩
      rw [List.foldl_nil, put, Option.isSome_map]
      exact Queue.put_isSome.2 hfirst
    · -- the first queue is full: what is oldest there goes to the others, which have room
      have hfull : q.held.length = q.bound := Nat.le_antisymm q.fits (Nat.le_of_not_lt hfirst)
      have hrest : 0 < room p := by
        have hall := length_contents_add_room (q :: p)
        have hpart := length_contents_add_room p
        rw [contents_cons, capacity_cons, List.length_append, hfull] at hall
        omega
      have hpos : 0 < q.held.length := hfull ▸ hbounds q List.mem_cons_self
      obtain ⟨b, rest, htake⟩ := Queue.take_isSome_of_pos hpos
      obtain ⟨is, his⟩ := ih (fun q' hq' => hbounds q' (List.mem_cons_of_mem _ hq')) hrest b
      obtain ⟨p₁, hput⟩ := Option.isSome_iff_exists.mp his
      refine ⟨is.map (· + 1) ++ [0], ?_⟩
      rw [List.foldl_append, foldl_shift_cons, List.foldl_cons, List.foldl_nil]
      cases hp : is.foldl shift p with
      | nil =>
        rw [hp] at hput
        cases hput
      | cons q' p' =>
        rw [hp] at hput
        obtain ⟨q'', hq'', rfl⟩ := Option.map_eq_some_iff.mp hput
        obtain ⟨hbound, hheld⟩ := Queue.take_eq_some.1 htake
        have hshift : shift (q :: q' :: p') 0 = rest :: q'' :: p' := by simp only [shift, htake, hq'']
        rw [hshift, put, Option.isSome_map]
        refine Queue.put_isSome.2 ?_
        rw [hbound, ← hfull, hheld, List.length_cons]
        exact Nat.lt_succ_self _

end Pipeline

end BigWorlds.Core
