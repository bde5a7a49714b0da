/-
Streamed responses (`net/quic.rs`, the multi-response branch of `handle_connection`; `executor.rs`,
`QuinnReceiver::recv`). The writer puts each response behind its length, as eight bytes; the receiver reads the length,
then as many bytes, and decodes them.

The receiver drops the error of the second read, so of a stream that ends early it decodes what has come of the message
with zeros in place of the rest. Past the last message it reads a length all the same, and returns the error of that
where its sibling on local channels returns `None`.

- `received_written`: the messages of a whole stream come in order, and after them an error.
- `received_cut`: what is received where the stream ends early.
- `streamed`: the end is never signalled; and a stream that ends early gives whole messages only, whichever place it
  ends at, exactly if no message is decoded from a part of its bytes and zeros.

Witness: `cut_message`: a message that was never sent.

Outside of the source: how messages are encoded (`Bincode`), and the text of the error that a read past the end of the
stream gives: `ending`. It differs between a stream that is finished and a connection that is lost.
-/
import BigWorlds.Core.Framing

namespace BigWorlds.Net

open BigWorlds.Core (bigEndian ofBigEndian frame framed whole)

/-- an encoding of messages, with a decoder inverse to it -/
structure Bincode (T : Type) where
  serialize : T → List UInt8
  deserialize : List UInt8 → Except String T
  inverse : ∀ msg, deserialize (serialize msg) = .ok msg

def maxMessageSize : ℕ := 1024 * 1024 * 16

/-- the errors that `recv` returns, of those of the crate -/
inductive RecvError where
  | ioError (text : String)
  | quinnNetworkError (text : String)
  | bincodeError (text : String)
deriving DecidableEq, Repr

variable {T : Type} (B : Bincode T) (ending : String)

/-! ## Writer and receiver -/

/-- what the multi-response branch writes for the responses that it gets from the executor: `len() as u64`, then the
bytes -/
def written (responses : List (List UInt8)) : List UInt8 := framed 8 responses

/-- `read_exact` into a buffer of zeros: where the stream ends early, the buffer has what came before that -/
def readExact (size : ℕ) (stream : List UInt8) : List UInt8 :=
  stream.take size ++ List.replicate (size - stream.length) 0

/-- `recv` once it has read the length, with what it leaves of the stream -/
def recvBody (size : ℕ) (stream : List UInt8) : Except RecvError (Option T) × List UInt8 :=
  -- a message that is too long stops the stream
  if maxMessageSize < size then (.error (.quinnNetworkError "max message size exceeded"), [])
  else
    match B.deserialize (readExact size stream) with
    | .error e => (.error (.bincodeError e), stream.drop size)
    | .ok msg => (.ok (some msg), stream.drop size)

/-- one `recv`; `read_u64` takes what there is -/
def recv (stream : List UInt8) : Except RecvError (Option T) × List UInt8 :=
  if stream.length < 8 then (.error (.ioError ending), [])
  else recvBody B (ofBigEndian (stream.take 8)) (stream.drop 8)

/-- how a loop of `recv` ends: by `None`, or by an error -/
inductive Ending where
  | ended
  | error (e : RecvError)
deriving DecidableEq, Repr

/-- `recv` over and over, `k` times at most; no ending if that is not enough -/
def receivedUpTo : (k : ℕ) → (stream : List UInt8) → List T × Option Ending
  | 0, _ => ([], none)
  | k + 1, stream =>
    match recv B ending stream with
    | (.ok (some msg), rest) => (msg :: (receivedUpTo k rest).1, (receivedUpTo k rest).2)
    | (.ok none, _) => ([], some .ended)
    | (.error e, _) => ([], some (.error e))

/-- `recv` until the first result without a message; each message takes eight bytes at least -/
def received (stream : List UInt8) : List T × Option Ending := receivedUpTo B ending (stream.length + 1) stream

/-! ## One message -/

variable {B} {ending} {stream rest : List UInt8} {msg : T}

/-- **What `recv` can return.** Never `None`; and a message leaves less of the stream. -/
theorem recv_cases (stream : List UInt8) :
    (∃ e rest, recv B ending stream = (.error e, rest)) ∨
      ∃ msg rest, recv B ending stream = (.ok (some msg), rest) ∧ rest.length < stream.length := by
  unfold recv recvBody
  split_ifs with hshort _
  · exact .inl ⟨_, _, rfl⟩
  · exact .inl ⟨_, _, rfl⟩
  · split
    · exact .inl ⟨_, _, rfl⟩
    · refine .inr ⟨_, _, rfl, ?_⟩
      rw [List.length_drop, List.length_drop]
      omega

theorem recv_short (h : stream.length < 8) : recv B ending stream = (.error (.ioError ending), []) := if_pos h

/-- a length that is whole, and as much of the message as there is -/
theorem recv_length {size : ℕ} (hsize : size ≤ maxMessageSize) (body : List UInt8) :
    recv B ending (bigEndian 8 size ++ body) = recvBody B size body := by
  have hlen : (bigEndian 8 size).length = 8 := Core.length_bigEndian 8 size
  have hfits : size < 256 ^ 8 := Nat.lt_of_le_of_lt hsize (by decide)
  rw [recv, if_neg (by rw [List.length_append, hlen]; omega), List.take_left' hlen, List.drop_left' hlen,
    Core.ofBigEndian_bigEndian hfits]

theorem recv_frame (hsize : (B.serialize msg).length ≤ maxMessageSize) (rest : List UInt8) :
    recv B ending (frame 8 (B.serialize msg) ++ rest) = (.ok (some msg), rest) := by
  have hexact : readExact (B.serialize msg).length (B.serialize msg ++ rest) = B.serialize msg := by
    rw [readExact, List.take_left, List.length_append, Nat.sub_self_add, List.replicate_zero, List.append_nil]
  rw [frame, List.append_assoc, recv_length hsize, recvBody, if_neg (Nat.not_lt.mpr hsize), hexact, B.inverse,
    List.drop_left]

/-! ## All of them -/

theorem receivedUpTo_eq {k : ℕ} (hk : stream.length < k) :
    receivedUpTo B ending k stream = received B ending stream := by
  suffices h : ∀ k', stream.length < k' → receivedUpTo B ending k stream = receivedUpTo B ending k' stream from
    h _ (Nat.lt_succ_self _)
  induction k generalizing stream with
  | zero => exact absurd hk (Nat.not_lt_zero _)
  | succ k ih =>
    intro k' hk'
    obtain ⟨k', rfl⟩ := Nat.exists_eq_add_one.mpr (Nat.lt_of_le_of_lt (Nat.zero_le _) hk')
    rw [receivedUpTo, receivedUpTo]
    rcases @recv_cases T B ending stream with ⟨e, rest, hrecv⟩ | ⟨msg, rest, hrecv, hlen⟩
    · rw [hrecv]
    · rw [hrecv]
      dsimp only
      rw [ih (by omega) k' (by omega)]

theorem received_message (h : recv B ending stream = (.ok (some msg), rest)) (hlen : rest.length < stream.length) :
    received B ending stream = (msg :: (received B ending rest).1, (received B ending rest).2) := by
  rw [received, receivedUpTo, h]
  dsimp only
  rw [receivedUpTo_eq hlen]

theorem received_error {e : RecvError} (h : recv B ending stream = (.error e, rest)) :
    received B ending stream = ([], some (.error e)) := by
  rw [received, receivedUpTo, h]

/-- every loop of `recv` comes to its end, by an error -/
theorem received_ending (stream : List UInt8) : ∃ e, (received B ending stream).2 = some (.error e) := by
  induction hn : stream.length using Nat.strong_induction_on generalizing stream with
  | _ n ih =>
    rcases @recv_cases T B ending stream with ⟨e, rest, hrecv⟩ | ⟨msg, rest, hrecv, hlen⟩
    · exact ⟨e, by rw [received_error hrecv]⟩
    · obtain ⟨e, he⟩ := ih rest.length (by omega) rest rfl
      exact ⟨e, by rw [received_message hrecv hlen, he]⟩

theorem received_short (h : stream.length < 8) : received B ending stream = ([], some (.error (.ioError ending))) :=
  received_error (recv_short h)

theorem received_frame (hsize : (B.serialize msg).length ≤ maxMessageSize) (rest : List UInt8) :
    received B ending (frame 8 (B.serialize msg) ++ rest) =
      (msg :: (received B ending rest).1, (received B ending rest).2) :=
  received_message (recv_frame hsize rest) (by rw [List.length_append, Core.length_frame]; omega)

/-- the bytes of a message up to a place, and zeros in place of the others -/
def filled (B : Bincode T) (msg : T) (n : ℕ) : List UInt8 :=
  (B.serialize msg).take n ++ List.replicate ((B.serialize msg).length - n) 0

/-- where a stream ends in a message, what is read of it passes for the message if it decodes -/
theorem received_part (hsize : (B.serialize msg).length ≤ maxMessageSize) {n : ℕ} (hn : n < (B.serialize msg).length) :
    received B ending (bigEndian 8 (B.serialize msg).length ++ (B.serialize msg).take n) =
      match B.deserialize (filled B msg n) with
      | .error e => ([], some (.error (.bincodeError e)))
      | .ok msg' => ([msg'], some (.error (.ioError ending))) := by
  have hlen : ((B.serialize msg).take n).length = n := List.length_take_of_le (Nat.le_of_lt hn)
  have hread : readExact (B.serialize msg).length ((B.serialize msg).take n) = filled B msg n := by
    rw [readExact, hlen, List.take_of_length_le (by omega), filled]
  have hrecv := @recv_length T B ending _ hsize ((B.serialize msg).take n)
  rw [recvBody, if_neg (Nat.not_lt.mpr hsize), hread] at hrecv
  cases hdec : B.deserialize (filled B msg n) with
  | error e =>
    rw [hdec] at hrecv
    exact received_error hrecv
  | ok msg' =>
    rw [hdec, List.drop_of_length_le (by omega)] at hrecv
    have hpos : 0 < (bigEndian 8 (B.serialize msg).length ++ (B.serialize msg).take n).length := by
      rw [List.length_append, Core.length_bigEndian]
      omega
    rw [received_message hrecv hpos, received_short (by decide)]

/-! ## Streams -/

/-- messages of the size that is allowed -/
structure Responses (B : Bincode T) where
  msgs : List T
  small : ∀ msg ∈ msgs, (B.serialize msg).length ≤ maxMessageSize

/-- what is written for the messages -/
def streamOf (B : Bincode T) (msgs : List T) : List UInt8 := written (msgs.map B.serialize)

/-- the messages of which all bytes are among the first `n` -/
def complete (B : Bincode T) (msgs : List T) (n : ℕ) : List T := msgs.take (whole 8 (msgs.map B.serialize) n)

/-- wherever the stream is cut, only whole messages are received, and then an error or the end -/
def CutSafe (B : Bincode T) (ending : String) (msgs : List T) : Prop :=
  ∀ n < (streamOf B msgs).length, (received B ending ((streamOf B msgs).take n)).1 <+: complete B msgs n ∧
    (received B ending ((streamOf B msgs).take n)).2 ≠ none

/-- what is asked of streamed responses -/
structure Streamed (B : Bincode T) (ending : String) (msgs : List T) : Prop where
  inOrder : received B ending (streamOf B msgs) = (msgs, some .ended)
  cutSafe : CutSafe B ending msgs

/-- the messages that do not decode from a part of their bytes and zeros -/
def Strict (B : Bincode T) (msg : T) : Prop :=
  ∀ n < (B.serialize msg).length, ∃ e, B.deserialize (filled B msg n) = .error e

theorem received_stream {msgs : List T} (hsmall : ∀ msg ∈ msgs, (B.serialize msg).length ≤ maxMessageSize) :
    received B ending (streamOf B msgs) = (msgs, some (.error (.ioError ending))) := by
  induction msgs with
  | nil => exact received_short (show 0 < 8 by decide)
  | cons msg msgs ih =>
    obtain ⟨hmsg, hmsgs⟩ := List.forall_mem_cons.mp hsmall
    have hrest := ih hmsgs
    rw [streamOf, List.map_cons, written, Core.framed_cons, received_frame hmsg]
    rw [streamOf, written] at hrest
    rw [hrest]

theorem length_streamOf_cons (msg : T) (msgs : List T) : (streamOf B (msg :: msgs)).length =
    8 + (B.serialize msg).length + (streamOf B msgs).length := by
  rw [streamOf, written, List.map_cons, Core.framed_cons, List.length_append, Core.length_frame]
  rfl

/-- behind the first message -/
theorem received_cut_of_le {msgs : List T} (hmsg : (B.serialize msg).length ≤ maxMessageSize) (n : ℕ) :
    received B ending ((streamOf B (msg :: msgs)).take (8 + (B.serialize msg).length + n)) =
        (msg :: (received B ending ((streamOf B msgs).take n)).1, (received B ending ((streamOf B msgs).take n)).2) ∧
      complete B (msg :: msgs) (8 + (B.serialize msg).length + n) = msg :: complete B msgs n := by
  have hle : 8 + (B.serialize msg).length ≤ 8 + (B.serialize msg).length + n := Nat.le_add_right _ n
  constructor
  · rw [streamOf, written, List.map_cons, Core.take_framed_of_le hle, Nat.add_sub_cancel_left, received_frame hmsg]
    rfl
  · rw [complete, List.map_cons, Core.whole_cons_of_le hle, Nat.add_sub_cancel_left, List.take_succ_cons, complete]

/-- inside of the first message -/
theorem received_cut_of_lt {msgs : List T} (hmsg : (B.serialize msg).length ≤ maxMessageSize) {n : ℕ}
    (hn : n < (B.serialize msg).length) :
    received B ending ((streamOf B (msg :: msgs)).take (8 + n)) =
        (match B.deserialize (filled B msg n) with
          | .error e => ([], some (.error (.bincodeError e)))
          | .ok msg' => ([msg'], some (.error (.ioError ending)))) ∧
      complete B (msg :: msgs) (8 + n) = [] := by
  constructor
  · rw [streamOf, written, List.map_cons, Core.take_framed_of_lt hn, received_part hmsg hn]
  · rw [complete, List.map_cons, Core.whole_cons_of_lt (by omega), List.take_zero]

theorem cutSafe_iff {msgs : List T} : CutSafe B ending msgs ↔
    ∀ n < (streamOf B msgs).length, (received B ending ((streamOf B msgs).take n)).1 <+: complete B msgs n := by
  refine forall₂_congr fun n _ => and_iff_left ?_
  obtain ⟨e, he⟩ := @received_ending T B ending ((streamOf B msgs).take n)
  rw [he]
  exact Option.some_ne_none _

/-- **One message more.** A cut in the first message is safe where that is strict, and a cut behind it where it is one
of the others. -/
theorem cutSafe_cons {msgs : List T} (hmsg : (B.serialize msg).length ≤ maxMessageSize) :
    CutSafe B ending (msg :: msgs) ↔ Strict B msg ∧ CutSafe B ending msgs := by
  rw [cutSafe_iff, cutSafe_iff, length_streamOf_cons]
  constructor
  · intro h
    constructor
    · intro n hn
      have hsafe := h (8 + n) (by omega)
      obtain ⟨hreceived, hcomplete⟩ := @received_cut_of_lt T B ending _ msgs hmsg _ hn
      rw [hreceived, hcomplete] at hsafe
      cases hdec : B.deserialize (filled B msg n) with
      | error e => exact ⟨e, rfl⟩
      | ok msg' =>
        rw [hdec] at hsafe
        exact absurd (List.prefix_nil.mp hsafe) (List.cons_ne_nil _ _)
    · intro n hn
      have hsafe := h (8 + (B.serialize msg).length + n) (by omega)
      obtain ⟨hreceived, hcomplete⟩ := @received_cut_of_le T B ending _ msgs hmsg n
      rw [hreceived, hcomplete] at hsafe
      exact (List.prefix_cons_inj msg).mp hsafe
  · intro h n hn
    obtain ⟨hstrict, hsafe⟩ := h
    rcases Nat.lt_or_ge n 8 with hshort | hlong
    · have hlen : ((streamOf B (msg :: msgs)).take n).length < 8 :=
        Nat.lt_of_le_of_lt (List.length_take_le _ _) hshort
      rw [received_short hlen]
      exact List.nil_prefix
    · rcases Nat.lt_or_ge n (8 + (B.serialize msg).length) with hlt | hge
      · obtain ⟨n, rfl⟩ := Nat.exists_eq_add_of_le hlong
        have hn : n < (B.serialize msg).length := by omega
        obtain ⟨e, he⟩ := hstrict n hn
        rw [(received_cut_of_lt hmsg hn).1, he]
        exact List.nil_prefix
      · obtain ⟨n, rfl⟩ := Nat.exists_eq_add_of_le hge
        obtain ⟨hreceived, hcomplete⟩ := @received_cut_of_le T B ending _ msgs hmsg n
        rw [hreceived, hcomplete]
        exact (List.prefix_cons_inj msg).mpr (hsafe n (by omega))

theorem cutSafe_iff_strict {msgs : List T} (hsmall : ∀ msg ∈ msgs, (B.serialize msg).length ≤ maxMessageSize) :
    CutSafe B ending msgs ↔ ∀ msg ∈ msgs, Strict B msg := by
  induction msgs with
  | nil =>
    -- a stream without messages has no byte to lose
    refine iff_of_true (fun n hn => absurd hn (Nat.not_lt_zero n)) fun msg h => absurd h List.not_mem_nil
  | cons msg msgs ih =>
    obtain ⟨hmsg, hmsgs⟩ := List.forall_mem_cons.mp hsmall
    rw [cutSafe_cons hmsg, ih hmsgs, List.forall_mem_cons]

/-- **Streamed responses.** The messages come in order, but their end is never signalled, by an error only; and a cut
stream gives no message that was not whole exactly if none of the messages decodes from a part of its bytes and
zeros. -/
theorem streamed (B : Bincode T) (ending : String) (responses : Responses B) :
    ¬ Streamed B ending responses.msgs ∧
      received B ending (streamOf B responses.msgs) = (responses.msgs, some (.error (.ioError ending))) ∧
      (CutSafe B ending responses.msgs ↔ ∀ msg ∈ responses.msgs, Strict B msg) := by
  have hwhole : received B ending (streamOf B responses.msgs) = (responses.msgs, some (.error (.ioError ending))) :=
    received_stream responses.small
  refine ⟨fun h => ?_, hwhole, cutSafe_iff_strict responses.small⟩
  have hend := hwhole.symm.trans h.inOrder
  exact absurd (Prod.mk.inj hend).2 (by simp)

/-- a pair of bytes; what is left over is no error -/
def pairCodec : Bincode (UInt8 × UInt8) where
  serialize pair := [pair.1, pair.2]
  deserialize
    | first :: second :: _ => .ok (first, second)
    | _ => .error "io error: unexpected end of file"
  inverse _ := rfl

/-- of the message (1, 2), cut behind its first byte, the message (1, 0) is received -/
theorem cut_message :
    (¬ ∀ responses : Responses pairCodec, Streamed pairCodec "unexpected end of file" responses.msgs) ∧
      ¬ ∀ responses : Responses pairCodec, CutSafe pairCodec "unexpected end of file" responses.msgs := by
  have hcut : ¬ CutSafe pairCodec "unexpected end of file" [(1, 2)] := fun h =>
    absurd (h 9 (by decide)).1 (by decide)
  have hsmall : ∀ msg ∈ [((1, 2) : UInt8 × UInt8)], (pairCodec.serialize msg).length ≤ maxMessageSize := by
    intro msg _
    show 2 ≤ maxMessageSize
    unfold maxMessageSize
    omega
  constructor
  · intro h
    exact hcut (h ⟨[(1, 2)], hsmall⟩).cutSafe
  · intro h
    exact hcut (h ⟨[(1, 2)], hsmall⟩)

end BigWorlds.Net
