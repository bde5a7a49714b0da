/-
Calls over a connection (`executor.rs`, `RemoteExec`; `net/quic.rs`, `handle_connection`). Each call has a stream of its
own: the caller writes a marker and the message and finishes its half; a task of the other side reads them, passes the
message on to the executor behind it, and writes back what the executor answers. The executor answers once, or, called
by the other marker, any number of times. Callers may be dropped anywhere, each side may lose the other anywhere.

- `answered_as_called`: whatever is under way beside it, a call that returned has run the executor and got its result
  as `Exec.call` says of a remote executor. So what is built on that rule stands on the wire format too.
- `runs_once`: a call runs the executor at most once, by its own marker, with the whole message or none of it, unless
  the caller is dropped: that finishes the stream, and what has been written by then passes for the message. A message
  over the limit runs nothing.
- `streams_in_order`: the receiver of a call with many answers gets a front of the answers, in order.
- `unserved_gets_nothing`: a call by a marker that nothing listens to gets nothing. Leaders, workers and nodes drop the
  receiver of calls with many answers where they make it, so that nothing is ever streamed from them to a remote caller.

Witnesses: `answered_as_called_two`, `streams_in_order_pair`, `unserved_gets_nothing_worker`.

Outside of the source: how messages are encoded (`Bincode`), the transport (what is written on a stream comes in order
or not at all; dropping a sender that has no error finishes its half), and the text of its errors.
-/
import Mathlib.Tactic.SplitIfs
import BigWorlds.Core.Call
import BigWorlds.Core.Run
import BigWorlds.Net.Streaming

namespace BigWorlds.Net

open BigWorlds.Core (Exec)

/-! ## Streams -/

/-- one answer, or a stream of them -/
inductive Pattern where
  | single
  | multi
deriving DecidableEq, Repr

/-- the first byte of a call -/
def Pattern.marker : Pattern → UInt8
  | .single => 0
  | .multi => 1

/-- how `handle_connection` reads it -/
def Pattern.ofMarker (byte : UInt8) : Pattern := if byte = 0 then .single else .multi

@[simp] theorem Pattern.ofMarker_marker (p : Pattern) : ofMarker p.marker = p := by cases p <;> rfl

/-- the most bytes that `execute` reads of an answer -/
def maxAnswerSize : ℕ := 100000000

/-- the errors of a call, of those of the crate -/
inductive CallError where
  | networkError (text : String)
  | quinnNetworkError (text : String)
  | ioError (text : String)
  | other (text : String)
deriving DecidableEq, Repr

/-- one direction of a stream: the bytes written so far, and whether there will be no more -/
structure Half where
  bytes : List UInt8
  finished : Bool
deriving DecidableEq, Repr

def Half.empty : Half := ⟨[], false⟩

/-- the task of a caller -/
inductive Caller (OUT : Type) where
  | writing (rest : List UInt8)
  | finishing
  | reading
  /-- the caller of `execute_to_multi` has its receiver -/
  | receiving
  | returned (result : Except CallError OUT)
  | dropped
deriving Repr

/-- the task that `handle_connection` spawns for a stream -/
inductive Serving where
  | accepting
  | reading (p : Pattern)
  | passing (p : Pattern) (bytes : List UInt8)
  | executing (p : Pattern)
  | writing (p : Pattern) (rest : List UInt8)
  | done
  | failed
deriving DecidableEq, Repr

structure Stream (IN OUT : Type) where
  pattern : Pattern
  msg : IN
  caller : Caller OUT
  request : Half
  serving : Serving
  reply : Half
  /-- how the executor was called for it, and what it answered -/
  invocations : List (Pattern × List UInt8)
  answers : List (List UInt8)

/-- what the two ends of all the streams have in common -/
structure Ends (IN OUT : Type) where
  requests : Bincode IN
  answers : Bincode OUT
  /-- whether anything listens to what the executor is passed -/
  served : Pattern → Bool
  /-- the error for an answer over the limit -/
  tooLong : String
  /-- an answer is of a type that takes a byte at least: no answer is not one -/
  nothing : ∃ e, answers.deserialize [] = .error e

variable {IN OUT : Type} (E : Ends IN OUT)

/-- what the caller has to write -/
def Ends.call (p : Pattern) (msg : IN) : List UInt8 := p.marker :: E.requests.serialize msg

/-- `open_bi` of `execute` and of `execute_to_multi` -/
def Ends.opened (p : Pattern) (msg : IN) : Stream IN OUT where
  pattern := p
  msg := msg
  caller := .writing (E.call p msg)
  request := .empty
  serving := .accepting
  reply := .empty
  invocations := []
  answers := []

namespace Stream

/-! ## The caller -/

inductive CallerOp where
  | write (n : ℕ)
  | finish
  | acknowledged
  | readToEnd
  | fails (e : CallError)
  | drop
deriving DecidableEq, Repr

def callerStep (s : Stream IN OUT) (o : CallerOp) : Stream IN OUT :=
  match o, s.caller with
  | .write n, .writing rest =>
    { s with caller := .writing (rest.drop n), request := ⟨s.request.bytes ++ rest.take n, s.request.finished⟩ }
  | .finish, .writing [] => { s with caller := .finishing, request := ⟨s.request.bytes, true⟩ }
  | .acknowledged, .finishing => { s with caller := match s.pattern with | .single => .reading | .multi => .receiving }
  | .readToEnd, .reading =>
    if s.reply.finished then
      if maxAnswerSize < s.reply.bytes.length then { s with caller := .returned (.error (.other E.tooLong)) }
      else { s with caller := .returned ((E.answers.deserialize s.reply.bytes).mapError .other) }
    else s
  -- a half that cannot be written any more is not finished by this
  | .fails e, .writing _ | .fails e, .finishing | .fails e, .reading => { s with caller := .returned (.error e) }
  -- dropping the sender finishes the half
  | .drop, .writing _ | .drop, .finishing | .drop, .reading | .drop, .receiving =>
    { s with caller := .dropped, request := ⟨s.request.bytes, true⟩ }
  | _, _ => s

/-! ## The task that serves it -/

inductive ServingOp where
  | readMarker
  | readToEnd
  | execute
  /-- the executor takes nothing any more, or the task fails before that -/
  | fails
  | answer (bytes : List UInt8)
  /-- the executor drops the sender of the answers -/
  | noAnswer
  | write (n : ℕ)
  | written
  | writeFails
deriving DecidableEq, Repr

/-- the task ends, and drops a sender that has no error -/
def fail (s : Stream IN OUT) : Stream IN OUT := { s with serving := .failed, reply := ⟨s.reply.bytes, true⟩ }

/-- what is written for an answer -/
def encoded : Pattern → List UInt8 → List UInt8
  | .single, bytes => bytes
  | .multi, bytes => Net.written [bytes]

def servingStep (s : Stream IN OUT) (o : ServingOp) : Stream IN OUT :=
  match o, s.serving with
  | .readMarker, .accepting =>
    match s.request.bytes with
    | byte :: _ => { s with serving := .reading (.ofMarker byte) }
    | [] => if s.request.finished then s.fail else s
  | .readToEnd, .reading p =>
    if s.request.finished then
      if maxMessageSize < (s.request.bytes.drop 1).length then s.fail
      else { s with serving := .passing p (s.request.bytes.drop 1) }
    else s
  | .execute, .passing p bytes =>
    if E.served p then { s with serving := .executing p, invocations := s.invocations ++ [(p, bytes)] } else s
  | .fails, .accepting | .fails, .reading _ | .fails, .passing _ _ => s.fail
  | .answer bytes, .executing p =>
    { s with serving := .writing p (encoded p bytes), answers := s.answers ++ [bytes] }
  | .noAnswer, .executing .single => s.fail
  | .noAnswer, .executing .multi => { s with serving := .done, reply := ⟨s.reply.bytes, true⟩ }
  | .write n, .writing p rest =>
    { s with serving := .writing p (rest.drop n), reply := ⟨s.reply.bytes ++ rest.take n, s.reply.finished⟩ }
  | .written, .writing .single [] => { s with serving := .done, reply := ⟨s.reply.bytes, true⟩ }
  | .written, .writing .multi [] => { s with serving := .executing .multi }
  | .writeFails, .writing _ _ => { s with serving := .failed }
  | _, _ => s

end Stream

/-! ## A connection -/

inductive ConnectionOp (IN : Type) where
  | opens (p : Pattern) (msg : IN)
  | caller (i : ℕ) (o : Stream.CallerOp)
  | serving (i : ℕ) (o : Stream.ServingOp)

def Ends.step (streams : List (Stream IN OUT)) : ConnectionOp IN → List (Stream IN OUT)
  | .opens p msg => streams ++ [E.opened p msg]
  | .caller i o => streams.modify i (·.callerStep E o)
  | .serving i o => streams.modify i (·.servingStep E o)

/-- the streams of a connection after a run -/
def Ends.run (ops : List (ConnectionOp IN)) : List (Stream IN OUT) := Core.run E.step [] ops

/-! ## What a step does -/

namespace Stream

variable {E} {s : Stream IN OUT}

/-- the caller waits in a call -/
def Waits (s : Stream IN OUT) : Prop := (∃ rest, s.caller = .writing rest) ∨ s.caller = .finishing ∨ s.caller = .reading

inductive CallerMoves (E : Ends IN OUT) (s : Stream IN OUT) : Stream IN OUT → Prop
  | stays : CallerMoves E s s
  | writes (n : ℕ) (rest : List UInt8) (h : s.caller = .writing rest) : CallerMoves E s
      { s with caller := .writing (rest.drop n), request := ⟨s.request.bytes ++ rest.take n, s.request.finished⟩ }
  | finishes (h : s.caller = .writing []) :
      CallerMoves E s { s with caller := .finishing, request := ⟨s.request.bytes, true⟩ }
  | reads (h : s.caller = .finishing) : CallerMoves E s { s with caller := .reading }
  | receives (h : s.caller = .finishing) : CallerMoves E s { s with caller := .receiving }
  | decodes (h : s.caller = .reading) (hfinished : s.reply.finished = true)
      (hsize : s.reply.bytes.length ≤ maxAnswerSize) :
      CallerMoves E s { s with caller := .returned ((E.answers.deserialize s.reply.bytes).mapError .other) }
  | fails (e : CallError) (h : s.Waits) : CallerMoves E s { s with caller := .returned (.error e) }
  | drops (h : s.Waits ∨ s.caller = .receiving) :
      CallerMoves E s { s with caller := .dropped, request := ⟨s.request.bytes, true⟩ }

theorem callerStep_moves (s : Stream IN OUT) (o : CallerOp) : CallerMoves E s (s.callerStep E o) := by
  unfold callerStep
  split
  next n rest hc => exact .writes n rest hc
  next hc => exact .finishes hc
  next hc =>
    split
    · exact .reads hc
    · exact .receives hc
  next hc =>
    split_ifs with hfinished hsize
    · exact .fails _ (.inr (.inr hc))
    · exact .decodes hc hfinished (Nat.not_lt.mp hsize)
    · exact .stays
  next e rest hc => exact .fails e (.inl ⟨rest, hc⟩)
  next e hc => exact .fails e (.inr (.inl hc))
  next e hc => exact .fails e (.inr (.inr hc))
  next rest hc => exact .drops (.inl (.inl ⟨rest, hc⟩))
  next hc => exact .drops (.inl (.inr (.inl hc)))
  next hc => exact .drops (.inl (.inr (.inr hc)))
  next hc => exact .drops (.inr hc)
  next => exact .stays

/-- the executor has not been passed the message -/
def Unasked (s : Stream IN OUT) : Prop :=
  s.serving = .accepting ∨ (∃ p, s.serving = .reading p) ∨ ∃ p bytes, s.serving = .passing p bytes

inductive ServingMoves (E : Ends IN OUT) (s : Stream IN OUT) : Stream IN OUT → Prop
  | stays : ServingMoves E s s
  | marked (byte : UInt8) (bytes : List UInt8) (h : s.serving = .accepting) (hbytes : s.request.bytes = byte :: bytes) :
      ServingMoves E s { s with serving := .reading (.ofMarker byte) }
  | reads (p : Pattern) (h : s.serving = .reading p) (hfinished : s.request.finished = true)
      (hsize : (s.request.bytes.drop 1).length ≤ maxMessageSize) :
      ServingMoves E s { s with serving := .passing p (s.request.bytes.drop 1) }
  | executes (p : Pattern) (bytes : List UInt8) (h : s.serving = .passing p bytes) (hserved : E.served p = true) :
      ServingMoves E s { s with serving := .executing p, invocations := s.invocations ++ [(p, bytes)] }
  | fails (h : s.Unasked ∨ s.serving = .executing .single) : ServingMoves E s s.fail
  | answered (p : Pattern) (bytes : List UInt8) (h : s.serving = .executing p) :
      ServingMoves E s { s with serving := .writing p (encoded p bytes), answers := s.answers ++ [bytes] }
  | ends (h : s.serving = .executing .multi) :
      ServingMoves E s { s with serving := .done, reply := ⟨s.reply.bytes, true⟩ }
  | writes (n : ℕ) (p : Pattern) (rest : List UInt8) (h : s.serving = .writing p rest) : ServingMoves E s
      { s with serving := .writing p (rest.drop n), reply := ⟨s.reply.bytes ++ rest.take n, s.reply.finished⟩ }
  | written (h : s.serving = .writing .single []) :
      ServingMoves E s { s with serving := .done, reply := ⟨s.reply.bytes, true⟩ }
  | next (h : s.serving = .writing .multi []) : ServingMoves E s { s with serving := .executing .multi }
  | writeFails (p : Pattern) (rest : List UInt8) (h : s.serving = .writing p rest) :
      ServingMoves E s { s with serving := .failed }

theorem servingStep_moves (s : Stream IN OUT) (o : ServingOp) : ServingMoves E s (s.servingStep E o) := by
  unfold servingStep
  split
  next hs =>
    split
    next byte bytes hbytes => exact .marked byte bytes hs hbytes
    next =>
      split_ifs
      · exact .fails (.inl (.inl hs))
      · exact .stays
  next p hs =>
    split_ifs with hfinished hsize
    · exact .fails (.inl (.inr (.inl ⟨p, hs⟩)))
    · exact .reads p hs hfinished (Nat.not_lt.mp hsize)
    · exact .stays
  next p bytes hs =>
    split_ifs with hserved
    · exact .executes p bytes hs hserved
    · exact .stays
  next hs => exact .fails (.inl (.inl hs))
  next p hs => exact .fails (.inl (.inr (.inl ⟨p, hs⟩)))
  next p bytes hs => exact .fails (.inl (.inr (.inr ⟨p, bytes, hs⟩)))
  next bytes p hs => exact .answered p bytes hs
  next hs => exact .fails (.inr hs)
  next hs => exact .ends hs
  next n p rest hs => exact .writes n p rest hs
  next hs => exact .written hs
  next hs => exact .next hs
  next p rest hs => exact .writeFails p rest hs
  next => exact .stays

/-! ## What holds of a stream -/

/-- what the caller has written: all of it where the half is finished and the caller was not dropped -/
def Requested (E : Ends IN OUT) (s : Stream IN OUT) : Prop :=
  match s.caller with
  | .writing rest => s.request.bytes ++ rest = E.call s.pattern s.msg ∧ s.request.finished = false
  | .finishing | .reading | .receiving => s.request = ⟨E.call s.pattern s.msg, true⟩
  | .returned _ => s.request.bytes <+: E.call s.pattern s.msg ∧
      (s.request.finished = true → s.request.bytes = E.call s.pattern s.msg)
  | .dropped => s.request.bytes <+: E.call s.pattern s.msg

/-- the message has been read to its end -/
def Body (s : Stream IN OUT) (bytes : List UInt8) : Prop :=
  s.request = ⟨s.pattern.marker :: bytes, true⟩ ∧ bytes.length ≤ maxMessageSize

/-- what the task has written once it has written all the answers so far -/
def replied (s : Stream IN OUT) : List UInt8 := s.answers.flatMap (encoded s.pattern)

def NotRun (s : Stream IN OUT) : Prop := s.invocations = [] ∧ s.answers = []

/-- the executor was called, once -/
def Ran (E : Ends IN OUT) (s : Stream IN OUT) : Prop :=
  E.served s.pattern = true ∧ (∃ bytes, s.Body bytes ∧ s.invocations = [(s.pattern, bytes)]) ∧
    (s.pattern = .single → s.answers.length ≤ 1)

def Served (E : Ends IN OUT) (s : Stream IN OUT) : Prop :=
  match s.serving with
  | .accepting => s.NotRun ∧ s.reply = .empty
  | .reading p => p = s.pattern ∧ s.request.bytes ≠ [] ∧ s.NotRun ∧ s.reply = .empty
  | .passing p bytes => p = s.pattern ∧ s.Body bytes ∧ s.NotRun ∧ s.reply = .empty
  | .executing p => p = s.pattern ∧ s.Ran E ∧ (p = .single → s.answers = []) ∧ s.reply = ⟨s.replied, false⟩
  | .writing p rest => p = s.pattern ∧ s.Ran E ∧ s.answers ≠ [] ∧ s.reply.bytes ++ rest = s.replied ∧
      s.reply.finished = false
  | .done => s.Ran E ∧ (s.pattern = .single → s.answers ≠ []) ∧ s.reply = ⟨s.replied, true⟩
  | .failed => (s.NotRun ∨ s.Ran E) ∧ s.reply.bytes <+: s.replied ∧ (s.reply.finished = true → s.reply.bytes = [])

/-- a call that returned a result has it from the answer of the executor -/
def Returned (E : Ends IN OUT) (s : Stream IN OUT) : Prop :=
  ∀ out, s.caller = .returned (.ok out) → s.serving = .done ∧ s.request = ⟨E.call s.pattern s.msg, true⟩ ∧
    s.reply.bytes.length ≤ maxAnswerSize ∧ E.answers.deserialize s.reply.bytes = .ok out

structure Sound (E : Ends IN OUT) (s : Stream IN OUT) : Prop where
  requested : s.Requested E
  served : s.Served E
  returned : s.Returned E

theorem opened_sound (p : Pattern) (msg : IN) : Sound E (E.opened p msg) where
  requested := ⟨rfl, rfl⟩
  served := ⟨⟨rfl, rfl⟩, rfl⟩
  returned out h := by cases h

/-! ## The caller's steps -/

theorem Ran.finished (h : s.Ran E) : s.request.finished = true := by
  obtain ⟨_, ⟨body, ⟨hrequest, _⟩, _⟩, _⟩ := h
  rw [hrequest]

/-- what the caller adds to its half leaves what is known of the serving task, which waits for the end of it -/
theorem Served.grow (h : s.Served E) (hopen : s.request.finished = false) (bytes : List UInt8) (c : Caller OUT)
    (finished : Bool) :
    ({ s with caller := c, request := ⟨s.request.bytes ++ bytes, finished⟩ } : Stream IN OUT).Served E := by
  have hran : ¬ s.Ran E := fun h => Bool.false_ne_true (hopen.symm.trans h.finished)
  unfold Served at h ⊢
  dsimp only
  cases hs : s.serving <;> simp only [hs] at h ⊢
  case accepting => exact h
  case reading p =>
    obtain ⟨hp, hbytes, hrest⟩ := h
    exact ⟨hp, fun hnil => hbytes (List.append_eq_nil_iff.mp hnil).1, hrest⟩
  case passing p body =>
    have hclosed := congrArg Half.finished h.2.1.1
    rw [hopen] at hclosed
    cases hclosed
  case executing p => exact absurd h.2.1 hran
  case writing p rest => exact absurd h.2.1 hran
  case done => exact absurd h.1 hran
  case failed => exact ⟨h.1.imp id fun h => absurd h hran, h.2⟩

theorem Served.calls (h : s.Served E) (c : Caller OUT) : ({ s with caller := c } : Stream IN OUT).Served E := h

/-- what a caller that was not dropped has written -/
theorem Requested.kept (h : s.Requested E) (hkept : s.caller ≠ .dropped) :
    s.request.bytes <+: E.call s.pattern s.msg ∧
      (s.request.finished = true → s.request.bytes = E.call s.pattern s.msg) := by
  unfold Requested at h
  cases hc : s.caller <;> simp only [hc] at h
  case writing rest => exact ⟨⟨rest, h.1⟩, fun hfinished => absurd (h.2.symm.trans hfinished) (by decide)⟩
  case returned => exact h
  case dropped => exact absurd hc hkept
  all_goals
    rw [h]
    exact ⟨List.prefix_refl _, fun _ => rfl⟩

theorem Waits.kept (h : s.Waits ∨ s.caller = .receiving) : s.caller ≠ .dropped := by
  rcases h with (⟨rest, hc⟩ | hc | hc) | hc <;> simp [hc]

/-- a half that is finished has nothing for a caller to read unless the task is done -/
theorem Served.done_of_finished (h : s.Served E) (hfinished : s.reply.finished = true) (hbytes : s.reply.bytes ≠ []) :
    s.serving = .done := by
  unfold Served at h
  cases hs : s.serving <;> simp only [hs] at h
  case done => rfl
  case failed => exact absurd (h.2.2 hfinished) hbytes
  all_goals simp_all [Half.empty]

theorem Sound.call (h : Sound E s) {s' : Stream IN OUT} (hstep : CallerMoves E s s') : Sound E s' := by
  have hrequested := h.requested
  unfold Requested at hrequested
  cases hstep with
  | stays => exact h
  | writes n rest hc =>
    simp only [hc] at hrequested
    refine ⟨⟨?_, hrequested.2⟩, h.served.grow hrequested.2 _ _ _, fun out hout => by cases hout⟩
    show s.request.bytes ++ rest.take n ++ rest.drop n = _
    rw [List.append_assoc, List.take_append_drop]
    exact hrequested.1
  | finishes hc =>
    simp only [hc, List.append_nil] at hrequested
    refine ⟨?_, ?_, fun out hout => by cases hout⟩
    · show (⟨s.request.bytes, true⟩ : Half) = _
      rw [hrequested.1]
    · have hgrow := h.served.grow hrequested.2 [] .finishing true
      rwa [List.append_nil] at hgrow
  | reads hc =>
    simp only [hc] at hrequested
    exact ⟨hrequested, h.served.calls _, fun out hout => by cases hout⟩
  | receives hc =>
    simp only [hc] at hrequested
    exact ⟨hrequested, h.served.calls _, fun out hout => by cases hout⟩
  | decodes hc hfinished hsize =>
    simp only [hc] at hrequested
    refine ⟨?_, h.served.calls _, ?_⟩
    · exact h.requested.kept (by simp [hc])
    · intro out hout
      have hout : (E.answers.deserialize s.reply.bytes).mapError CallError.other = .ok out := Caller.returned.inj hout
      cases hdecoded : E.answers.deserialize s.reply.bytes with
      | error e =>
        rw [hdecoded] at hout
        cases hout
      | ok answer =>
        rw [hdecoded] at hout
        obtain rfl : answer = out := Except.ok.inj hout
        have hbytes : s.reply.bytes ≠ [] := by
          intro hnil
          obtain ⟨e, he⟩ := E.nothing
          rw [hnil, he] at hdecoded
          cases hdecoded
        exact ⟨h.served.done_of_finished hfinished hbytes, hrequested, hsize, rfl⟩
  | fails e hc =>
    exact ⟨h.requested.kept (Waits.kept (.inl hc)), h.served.calls _, fun out hout => by cases hout⟩
  | drops hc =>
    have hwritten := h.requested.kept (Waits.kept hc)
    refine ⟨hwritten.1, ?_, fun out hout => by cases hout⟩
    cases hfinished : s.request.finished with
    | false =>
      have hgrow := h.served.grow hfinished [] .dropped true
      rwa [List.append_nil] at hgrow
    | true =>
      have hsame : (⟨s.request.bytes, true⟩ : Half) = s.request := by rw [← hfinished]
      rw [hsame]
      exact h.served.calls _

/-! ## The steps of the task -/

/-- a step of the task: until it is done no call has returned a result -/
theorem Sound.serves (h : Sound E s) (hundone : s.serving ≠ .done) {v : Serving} {reply : Half}
    {invocations : List (Pattern × List UInt8)} {answers : List (List UInt8)}
    (hserved : ({ s with serving := v, reply, invocations, answers } : Stream IN OUT).Served E) :
    Sound E { s with serving := v, reply, invocations, answers } :=
  ⟨h.requested, hserved, fun out hout => absurd (h.returned out hout).1 hundone⟩

theorem Requested.written (h : s.Requested E) : s.request.bytes <+: E.call s.pattern s.msg := by
  cases hc : s.caller with
  | dropped =>
    unfold Requested at h
    simp only [hc] at h
    exact h
  | _ => exact (h.kept (by simp [hc])).1

/-- the first byte that the task reads is the marker -/
theorem Requested.head (h : s.Requested E) {byte : UInt8} {bytes : List UInt8}
    (hbytes : s.request.bytes = byte :: bytes) : byte = s.pattern.marker := by
  have hprefix := h.written
  rw [hbytes, Ends.call, List.cons_prefix_cons] at hprefix
  exact hprefix.1

theorem Sound.serve (h : Sound E s) {s' : Stream IN OUT} (hstep : ServingMoves E s s') : Sound E s' := by
  have hserved := h.served
  unfold Served at hserved
  cases hstep with
  | stays => exact h
  | marked byte bytes hs hbytes =>
    simp only [hs] at hserved
    have hp : Pattern.ofMarker byte = s.pattern := by rw [h.requested.head hbytes, Pattern.ofMarker_marker]
    have hne : s.request.bytes ≠ [] := by
      rw [hbytes]
      exact List.cons_ne_nil _ _
    exact h.serves (by simp [hs]) ⟨hp, hne, hserved⟩
  | reads p hs hfinished hsize =>
    simp only [hs] at hserved
    obtain ⟨hp, hbytes, hrest⟩ := hserved
    obtain ⟨byte, bytes, hcons⟩ := List.exists_cons_of_ne_nil hbytes
    have hrequest : s.request = ⟨s.pattern.marker :: s.request.bytes.drop 1, true⟩ := by
      rw [← h.requested.head hcons, ← hfinished, hcons]
      show s.request = ⟨byte :: bytes, _⟩
      rw [← hcons]
    exact h.serves (by simp [hs]) ⟨hp, ⟨hrequest, hsize⟩, hrest⟩
  | executes p bytes hs hp =>
    simp only [hs] at hserved
    obtain ⟨rfl, hbody, ⟨hnone, hanswers⟩, hreply⟩ := hserved
    refine h.serves (by simp [hs]) ⟨rfl, ⟨hp, ⟨bytes, hbody, ?_⟩, ?_⟩, fun _ => hanswers, ?_⟩
    · show s.invocations ++ _ = _
      rw [hnone, List.nil_append]
    · intro _
      show s.answers.length ≤ 1
      rw [hanswers]
      exact Nat.zero_le _
    · show s.reply = ⟨s.answers.flatMap _, false⟩
      rw [hreply, hanswers]
      rfl
  | fails hs =>
    have hundone : s.serving ≠ .done := by rcases hs with (hs | ⟨_, hs⟩ | ⟨_, _, hs⟩) | hs <;> simp [hs]
    have hbytes : (s.NotRun ∨ s.Ran E) ∧ s.reply.bytes = [] := by
      rcases hs with (hs | ⟨p, hs⟩ | ⟨p, bytes, hs⟩) | hs <;> simp only [hs] at hserved
      · exact ⟨.inl hserved.1, by rw [hserved.2]; rfl⟩
      · exact ⟨.inl hserved.2.2.1, by rw [hserved.2.2.2]; rfl⟩
      · exact ⟨.inl hserved.2.2.1, by rw [hserved.2.2.2]; rfl⟩
      · exact ⟨.inr hserved.2.1, by rw [hserved.2.2.2, replied, hserved.2.2.1 trivial]; rfl⟩
    refine h.serves hundone ⟨hbytes.1, ?_, fun _ => hbytes.2⟩
    show s.reply.bytes <+: _
    rw [hbytes.2]
    exact List.nil_prefix
  | answered p bytes hs =>
    simp only [hs] at hserved
    obtain ⟨rfl, ⟨hp, honce, _⟩, hanswers, hreply⟩ := hserved
    refine h.serves (by simp [hs]) ⟨rfl, ⟨hp, honce, ?_⟩, List.append_ne_nil_of_right_ne_nil _ (by simp), ?_, ?_⟩
    · intro hsingle
      show (s.answers ++ [bytes]).length ≤ 1
      rw [hanswers hsingle]
      exact Nat.le_refl 1
    · show s.reply.bytes ++ encoded s.pattern bytes = (s.answers ++ [bytes]).flatMap (encoded s.pattern)
      rw [hreply, List.flatMap_append, List.flatMap_singleton]
      rfl
    · show s.reply.finished = false
      rw [hreply]
  | ends hs =>
    simp only [hs] at hserved
    obtain ⟨hp, hran, _, hreply⟩ := hserved
    refine h.serves (by simp [hs]) ⟨hran, ?_, ?_⟩
    · intro hsingle
      exact absurd (hp.trans hsingle) (by decide)
    · show (⟨s.reply.bytes, true⟩ : Half) = ⟨s.replied, true⟩
      rw [hreply]
  | writes n p rest hs =>
    simp only [hs] at hserved
    obtain ⟨hp, hran, hanswers, hreply, hfinished⟩ := hserved
    refine h.serves (by simp [hs]) ⟨hp, hran, hanswers, ?_, hfinished⟩
    show s.reply.bytes ++ rest.take n ++ rest.drop n = s.replied
    rw [List.append_assoc, List.take_append_drop, hreply]
  | written hs =>
    simp only [hs, List.append_nil] at hserved
    obtain ⟨_, hran, hanswers, hreply, _⟩ := hserved
    refine h.serves (by simp [hs]) ⟨hran, fun _ => hanswers, ?_⟩
    show (⟨s.reply.bytes, true⟩ : Half) = ⟨s.replied, true⟩
    rw [hreply]
  | next hs =>
    simp only [hs, List.append_nil] at hserved
    obtain ⟨hp, hran, _, hreply, hfinished⟩ := hserved
    refine h.serves (by simp [hs]) ⟨hp, hran, ?_, ?_⟩
    · intro hsingle
      cases hsingle
    · show s.reply = ⟨s.replied, false⟩
      rw [← hreply, ← hfinished]
  | writeFails p rest hs =>
    simp only [hs] at hserved
    obtain ⟨_, hran, _, hreply, hfinished⟩ := hserved
    refine h.serves (by simp [hs]) ⟨.inr hran, ⟨rest, hreply⟩, ?_⟩
    intro hclosed
    exact absurd (hfinished.symm.trans hclosed) (by decide)

end Stream

/-! ## Whole runs -/

variable {E} {ops : List (ConnectionOp IN)} {s : Stream IN OUT}

/-- **The invariant of a connection.** Whatever the callers and the tasks do, in whatever order. -/
theorem run_sound (h : s ∈ E.run ops) : s.Sound E := by
  have hstep : ∀ (streams : List (Stream IN OUT)) (o : ConnectionOp IN), (∀ s ∈ streams, s.Sound E) →
      ∀ s ∈ E.step streams o, s.Sound E := by
    intro streams o hall
    cases o with
    | opens p msg =>
      intro s hs
      rcases List.mem_append.mp hs with hs | hs
      · exact hall s hs
      · rw [List.mem_singleton.mp hs]
        exact Stream.opened_sound p msg
    | caller i o => exact Core.forall_mem_modify (fun s hs => hs.call (s.callerStep_moves o)) hall i
    | serving i o => exact Core.forall_mem_modify (fun s hs => hs.serve (s.servingStep_moves o)) hall i
  have hnone : ∀ s ∈ ([] : List (Stream IN OUT)), s.Sound E := fun s hs => absurd hs List.not_mem_nil
  exact Core.run_keeps hstep hnone ops s h

namespace Stream

theorem Sound.notRun_or_ran (h : s.Sound E) : s.NotRun ∨ s.Ran E := by
  have hserved := h.served
  unfold Served at hserved
  cases hs : s.serving <;> simp only [hs] at hserved
  case accepting => exact .inl hserved.1
  case reading => exact .inl hserved.2.2.1
  case passing => exact .inl hserved.2.2.1
  case executing => exact .inr hserved.2.1
  case writing => exact .inr hserved.2.1
  case done => exact .inr hserved.1
  case failed => exact hserved.1

/-- what has been written back is a front of what the answers are written as -/
theorem Sound.reply_prefix (h : s.Sound E) : s.reply.bytes <+: s.replied := by
  have hserved := h.served
  unfold Served at hserved
  cases hs : s.serving <;> simp only [hs] at hserved
  case accepting =>
    rw [hserved.2]
    exact List.nil_prefix
  case reading =>
    rw [hserved.2.2.2]
    exact List.nil_prefix
  case passing =>
    rw [hserved.2.2.2]
    exact List.nil_prefix
  case executing => rw [hserved.2.2.2]
  case writing p rest => exact ⟨rest, hserved.2.2.2.1⟩
  case done => rw [hserved.2.2]
  case failed => exact hserved.2.1

/-- the executor was called with the message that was to be written, or with as much as a dropped caller had written -/
theorem Sound.body (h : s.Sound E) {bytes : List UInt8} (hbody : s.Body bytes) :
    bytes <+: E.requests.serialize s.msg ∧ (s.caller ≠ .dropped → bytes = E.requests.serialize s.msg) := by
  have hprefix := h.requested.written
  rw [hbody.1] at hprefix
  refine ⟨(List.cons_prefix_cons.mp hprefix).2, fun hkept => ?_⟩
  have hwhole := (h.requested.kept hkept).2
  rw [hbody.1] at hwhole
  exact (List.cons.inj (hwhole rfl)).2

/-- what is asked of the executor in a call -/
structure RunsOnce (E : Ends IN OUT) (s : Stream IN OUT) : Prop where
  once : s.invocations.length ≤ 1
  served : s.invocations ≠ [] → E.served s.pattern = true
  whole : ∀ run ∈ s.invocations, run.1 = s.pattern ∧ run.2.length ≤ maxMessageSize ∧
    run.2 <+: E.requests.serialize s.msg ∧ (s.caller ≠ .dropped → run.2 = E.requests.serialize s.msg)

end Stream

/-- **A call runs the executor at most once.** By its own marker, with the whole message unless its caller is dropped,
and never with one over the limit. -/
theorem runs_once (ops : List (ConnectionOp IN)) : ∀ s ∈ E.run ops, s.RunsOnce E := by
  intro s hs
  have hsound := run_sound hs
  rcases hsound.notRun_or_ran with ⟨hnone, _⟩ | ⟨hserved, ⟨bytes, hbody, honce⟩, _⟩
  · refine ⟨?_, fun hne => absurd hnone hne, fun run hrun => ?_⟩
    · rw [hnone]
      exact Nat.zero_le 1
    · rw [hnone] at hrun
      exact absurd hrun List.not_mem_nil
  · refine ⟨?_, fun _ => hserved, fun run hrun => ?_⟩
    · rw [honce]
      exact Nat.le_refl 1
    · rw [honce, List.mem_singleton] at hrun
      rw [hrun]
      exact ⟨rfl, hbody.2, hsound.body hbody⟩

/-- a byte for a message -/
def byteCodec : Bincode UInt8 where
  serialize byte := [byte]
  deserialize
    | byte :: _ => .ok byte
    | [] => .error "io error: unexpected end of file"
  inverse _ := rfl

/-- two bytes for a call, one for an answer; the multi-response receiver is dropped, as `worker::spawn` does -/
def byteEnds : Ends (UInt8 × UInt8) UInt8 where
  requests := pairCodec
  answers := byteCodec
  served p := p = .single
  tooLong := "stream too long"
  nothing := ⟨_, rfl⟩

/-- two calls at once: the executor runs the second first, and the answer to the first is lost -/
def twoCalls : List (ConnectionOp (UInt8 × UInt8)) :=
  [.opens .single (1, 2), .opens .single (3, 4), .caller 1 (.write 3), .caller 0 (.write 2), .serving 1 .readMarker,
    .caller 1 .finish, .caller 1 .acknowledged, .serving 1 .readToEnd, .serving 1 .execute, .caller 0 (.write 5),
    .caller 0 .finish, .serving 0 .readMarker, .serving 0 .readToEnd, .serving 0 .execute, .serving 1 (.answer [7]),
    .serving 1 (.write 1), .serving 1 .written, .caller 1 .readToEnd, .serving 0 (.answer [5]), .caller 0 .acknowledged,
    .caller 0 (.fails (.other "timed out"))]

theorem runs_once_two : ∃ lost answered, byteEnds.run twoCalls = [lost, answered] ∧ lost.RunsOnce byteEnds ∧
    answered.RunsOnce byteEnds :=
  ⟨_, _, rfl, runs_once twoCalls _ (List.mem_cons_self ..),
    runs_once twoCalls _ (List.mem_cons_of_mem _ (List.mem_cons_self ..))⟩

/-! ## Calls with one answer -/

/-- what a call does to the calls that the executor has run, where it gives the answer -/
def Stream.handler (E : Ends IN OUT) (s : Stream IN OUT) (answer : Except CallError OUT)
    (log : List (Pattern × List UInt8)) : List (Pattern × List UInt8) × Except CallError OUT :=
  (log ++ [(s.pattern, E.requests.serialize s.msg)], answer)

/-- the answer is one that the executor gave -/
def Stream.Gave (E : Ends IN OUT) (s : Stream IN OUT) (answer : Except CallError OUT) : Prop :=
  ∀ out, answer = .ok out → ∃ bytes, s.answers = [bytes] ∧ E.answers.deserialize bytes = .ok out

/-- a call that returned a result has run, and got the answer of that -/
theorem Stream.Sound.returned_ok (h : s.Sound E) (hsingle : s.pattern = .single) {out : OUT}
    (hout : s.caller = .returned (.ok out)) :
    s.invocations = [(s.pattern, E.requests.serialize s.msg)] ∧ s.Gave E (.ok out) := by
  obtain ⟨hdone, _, _, hdecoded⟩ := h.returned out hout
  have hserved := h.served
  unfold Stream.Served at hserved
  simp only [hdone] at hserved
  obtain ⟨⟨_, ⟨bytes, hbody, honce⟩, hfew⟩, hsome, hreply⟩ := hserved
  have hwhole := (h.body hbody).2 (by rw [hout]; exact fun hd => by cases hd)
  obtain ⟨answer, hanswer⟩ : ∃ answer, s.answers = [answer] :=
    List.length_eq_one_iff.mp (Nat.le_antisymm (hfew hsingle) (List.length_pos_iff.mpr (hsome hsingle)))
  refine ⟨by rw [honce, hwhole], ?_⟩
  intro out' hout'
  have hreplied : s.reply.bytes = answer := by
    rw [hreply, Stream.replied, hanswer, hsingle]
    exact List.append_nil answer
  rw [hreplied] at hdecoded
  obtain rfl := Except.ok.inj hout'
  exact ⟨answer, hanswer, hdecoded⟩

/-- **A call returns what a remote executor may return.** What it ran and what it got are those of `Exec.call`, with an
answer that the executor gave. -/
theorem answered_as_called (ops : List (ConnectionOp IN)) {result : Except CallError OUT} (hs : s ∈ E.run ops)
    (hsingle : s.pattern = .single) (hresult : s.caller = .returned result) :
    ∃ fate answer, Exec.remote.call fate id (s.handler E answer) [] = (s.invocations, result) ∧ s.Gave E answer := by
  have hsound := run_sound hs
  cases result with
  | ok out =>
    obtain ⟨honce, hgave⟩ := hsound.returned_ok hsingle hresult
    exact ⟨.delivered, .ok out, by rw [honce]; rfl, hgave⟩
  | error e =>
    have hnone : s.Gave E (.error e) := fun out h => by cases h
    rcases hsound.notRun_or_ran with ⟨hempty, _⟩ | ⟨_, ⟨bytes, hbody, honce⟩, _⟩
    · exact ⟨.requestLost e, .error e, by rw [hempty]; rfl, hnone⟩
    · have hwhole := (hsound.body hbody).2 (by rw [hresult]; exact fun hd => by cases hd)
      exact ⟨.replyLost e, .error e, by rw [honce, hwhole]; rfl, hnone⟩

theorem answered_as_called_two : ∃ lost answered, byteEnds.run twoCalls = [lost, answered] ∧
    (∃ fate answer, Exec.remote.call fate id (lost.handler byteEnds answer) [] =
      ([(.single, [1, 2])], .error (.other "timed out")) ∧ lost.Gave byteEnds answer) ∧
    ∃ fate answer, Exec.remote.call fate id (answered.handler byteEnds answer) [] = ([(.single, [3, 4])], .ok 7) ∧
      answered.Gave byteEnds answer :=
  ⟨_, _, rfl, answered_as_called twoCalls (List.mem_cons_self ..) rfl rfl,
    answered_as_called twoCalls (List.mem_cons_of_mem _ (List.mem_cons_self ..)) rfl rfl⟩

/-- a caller that is dropped has the executor run what it has written of the message -/
example : (byteEnds.run [.opens .single (1, 2), .caller 0 (.write 2), .caller 0 .drop, .serving 0 .readMarker,
    .serving 0 .readToEnd, .serving 0 .execute]).map (·.invocations) = [[(.single, [1])]] := rfl

/-! ## Calls with many answers -/

theorem Stream.replied_multi (hmulti : s.pattern = .multi) : s.replied = written s.answers := by
  rw [Stream.replied, hmulti]
  induction s.answers with
  | nil => rfl
  | cons bytes others ih =>
    rw [List.flatMap_cons, ih, written, written, Core.framed_cons]
    exact congrArg (· ++ _) (List.append_nil _)

/-- **Many answers come in order.** Of the answers that were given to a call, its receiver gets a front, from whatever
part of the bytes has come, and all of them once the task is done. What is asked is that they are within the limit and
that none decodes from a part of its bytes. -/
theorem streams_in_order (ops : List (ConnectionOp IN)) (ending : String) {msgs : List OUT} (hs : s ∈ E.run ops)
    (hmulti : s.pattern = .multi) (hanswers : s.answers = msgs.map E.answers.serialize)
    (hsmall : ∀ msg ∈ msgs, (E.answers.serialize msg).length ≤ maxMessageSize)
    (hstrict : ∀ msg ∈ msgs, Strict E.answers msg) :
    (∀ n, (received E.answers ending (s.reply.bytes.take n)).1 <+: msgs) ∧
      (s.serving = .done → received E.answers ending s.reply.bytes = (msgs, some (.error (.ioError ending)))) := by
  have hsound := run_sound hs
  have hreplied : s.replied = streamOf E.answers msgs := by
    rw [Stream.replied_multi hmulti, hanswers]
    rfl
  constructor
  · intro n
    -- what has come is what was written, up to some place
    obtain ⟨k, hk⟩ : ∃ k, s.reply.bytes.take n = (streamOf E.answers msgs).take k := by
      have hprefix := (List.take_prefix n s.reply.bytes).trans hsound.reply_prefix
      rw [hreplied] at hprefix
      exact ⟨_, List.prefix_iff_eq_take.mp hprefix⟩
    rw [hk]
    rcases Nat.lt_or_ge k (streamOf E.answers msgs).length with hlt | hge
    · exact (((cutSafe_iff_strict hsmall).mpr hstrict) k hlt).1.trans (List.take_prefix _ _)
    · rw [List.take_of_length_le hge, received_stream hsmall]
  · intro hdone
    have hserved := hsound.served
    unfold Stream.Served at hserved
    simp only [hdone] at hserved
    rw [hserved.2.2, hreplied, received_stream hsmall]

/-- a byte, and one more that tells that it is whole -/
def markedCodec : Bincode UInt8 where
  serialize byte := [byte, 1]
  deserialize bytes :=
    match bytes with
    | [byte, mark] => if mark = 1 then .ok byte else .error "invalid mark"
    | _ => .error "io error: unexpected end of file"
  inverse _ := rfl

/-- both receivers are kept -/
def markedEnds : Ends (UInt8 × UInt8) UInt8 where
  requests := pairCodec
  answers := markedCodec
  served _ := true
  tooLong := "stream too long"
  nothing := ⟨_, rfl⟩

/-- a call with two answers, of which one and a part of the other have come -/
def twoAnswers : List (ConnectionOp (UInt8 × UInt8)) :=
  [.opens .multi (1, 2), .caller 0 (.write 3), .caller 0 .finish, .serving 0 .readMarker, .serving 0 .readToEnd,
    .caller 0 .acknowledged, .serving 0 .execute, .serving 0 (.answer [7, 1]), .serving 0 (.write 10),
    .serving 0 .written, .serving 0 (.answer [8, 1]), .serving 0 (.write 9), .serving 0 .writeFails]

theorem markedCodec_strict (byte : UInt8) : Strict markedCodec byte := by
  intro n hn
  rcases Nat.lt_or_ge n 1 with h | h
  · obtain rfl : n = 0 := by omega
    exact ⟨_, rfl⟩
  · obtain rfl : n = 1 := Nat.le_antisymm (Nat.lt_succ_iff.mp hn) h
    exact ⟨_, rfl⟩

theorem streams_in_order_pair : ∃ s, markedEnds.run twoAnswers = [s] ∧
    (∀ n, (received markedCodec "connection lost" (s.reply.bytes.take n)).1 <+: [7, 8]) ∧
      (s.serving = .done → received markedCodec "connection lost" s.reply.bytes =
        ([7, 8], some (.error (.ioError "connection lost")))) := by
  have hsmall : ∀ msg ∈ ([7, 8] : List UInt8), (markedCodec.serialize msg).length ≤ maxMessageSize := by
    intro msg _
    show 2 ≤ maxMessageSize
    unfold maxMessageSize
    omega
  exact ⟨_, rfl, streams_in_order twoAnswers "connection lost" (List.mem_cons_self ..) rfl rfl hsmall
    fun msg _ => markedCodec_strict msg⟩

/-- **Calls that nothing listens to get nothing.** Where the receiver of the calls by a marker is dropped, as every
owner of such an executor drops that of calls with many answers, such a call runs nothing, returns no result, and its
receiver gets no message. -/
theorem unserved_gets_nothing (ops : List (ConnectionOp IN)) (ending : String) (hs : s ∈ E.run ops)
    (hserved : E.served s.pattern = false) :
    s.invocations = [] ∧ (∀ out, s.caller ≠ .returned (.ok out)) ∧
      received E.answers ending s.reply.bytes = ([], some (.error (.ioError ending))) := by
  have hsound := run_sound hs
  have hnone : s.NotRun := by
    rcases hsound.notRun_or_ran with hnone | hran
    · exact hnone
    · exact absurd (hserved.symm.trans hran.1) (by decide)
  have hbytes : s.reply.bytes = [] := by
    have hprefix := hsound.reply_prefix
    rw [Stream.replied, hnone.2] at hprefix
    exact List.prefix_nil.mp hprefix
  refine ⟨hnone.1, fun out hout => ?_, ?_⟩
  · obtain ⟨e, he⟩ := E.nothing
    have hdecoded := (hsound.returned out hout).2.2.2
    rw [hbytes, he] at hdecoded
    cases hdecoded
  · rw [hbytes]
    exact received_short (by decide)

theorem unserved_gets_nothing_worker : ∃ s, byteEnds.run [.opens .multi (1, 2), .caller 0 (.write 3), .caller 0 .finish,
    .serving 0 .readMarker, .serving 0 .readToEnd, .caller 0 .acknowledged, .serving 0 .fails] = [s] ∧
      s.invocations = [] ∧ (∀ out, s.caller ≠ .returned (.ok out)) ∧
        received byteCodec "stream ended" s.reply.bytes = ([], some (.error (.ioError "stream ended"))) :=
  ⟨_, rfl, unserved_gets_nothing [.opens .multi (1, 2), .caller 0 (.write 3), .caller 0 .finish,
    .serving 0 .readMarker, .serving 0 .readToEnd, .caller 0 .acknowledged, .serving 0 .fails] "stream ended"
      (List.mem_cons_self ..) rfl⟩

end BigWorlds.Net
