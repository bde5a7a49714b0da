/-
Texts of composite addresses (`net/mod.rs`): an encoding, a transport and an address, of which the first two may be
missing, as in `bincode@quic://[::1]:9123`.

The reader splits the text at every `://` and its head at every `@`, and takes the pieces next to the first of them;
what stands behind a second one is dropped without an error. A url has a `://` of its own and a path may have an `@`.

- `fromStr_ne_panic`: no text makes the reader panic: the pieces that it indexes are there.
- `composite_iff`: which composite addresses are read back from their own text.

Witness: `url_lost`: behind an encoding and a transport, a url is read as a path, which is its scheme.

Outside of the source: what a socket address prints as and what a text resolves to, and which texts are urls
(`Resolver`). Its laws are documented: a socket address prints as numbers between dots, colons and brackets, and a text
that resolves does so to at least one address.
-/
import BigWorlds.Core.Bytes
import BigWorlds.Core.Except

namespace BigWorlds.Net

open BigWorlds.Core (cut pieces)

/-! ## Texts -/

/-- `str::contains` -/
def contains (pattern s : String) : Bool := (Core.find pattern.toList s.toList).isSome

/-- `str::split`, collected -/
def splitText (pattern s : String) : List String := (pieces pattern.toList s.toList).map String.ofList

/-- `str::to_lowercase`, as far as names in ASCII can tell: of all other characters only the Kelvin sign has a lower
case in ASCII -/
def toLowercase (s : String) : String :=
  String.ofList (s.toList.map fun c => if c = '\u212a' then 'k' else c.toLower)

section
variable {pattern front s : String} {c : Char} {rest : List Char}

theorem contains_iff : contains pattern s = true ↔ pattern.toList <:+: s.toList := by
  rw [contains, Core.find, Option.isSome_map, ← not_iff_not, ← Core.cut_eq_none_iff]
  simp

theorem contains_append (pattern front back : String) : contains pattern (front ++ pattern ++ back) = true := by
  rw [contains_iff, String.toList_append, String.toList_append]
  exact List.infix_append _ _ _

theorem contains_back (h : contains pattern s = true) (front : String) : contains pattern (front ++ s) = true := by
  rw [contains_iff, String.toList_append]
  exact (contains_iff.1 h).trans (List.suffix_append _ _).isInfix

/-- what is put in front of a text makes no place for a pattern that cannot start there -/
theorem contains_back_iff (hp : pattern.toList = c :: rest) (h : c ∉ front.toList) :
    contains pattern (front ++ s) = contains pattern s := by
  unfold contains Core.find
  rw [hp, String.toList_append, Core.cut_append_of_not_mem h, Option.isSome_map, Option.isSome_map, Option.isSome_map]

theorem splitText_append (hp : pattern.toList = c :: rest) (h : c ∉ front.toList) (back : String) :
    splitText pattern (front ++ pattern ++ back) = front :: splitText pattern back := by
  unfold splitText
  rw [String.toList_append, String.toList_append, hp,
    Core.pieces_of_cut (List.cons_ne_nil c rest) (Core.cut_eq_of_not_mem h back.toList), List.map_cons,
    String.ofList_toList]

theorem exists_splitText (hp : pattern.toList = c :: rest) (s : String) :
    ∃ first others, splitText pattern s = first :: others ∧ (first = s ↔ contains pattern s = false) := by
  obtain ⟨first, others, hpieces, hfirst⟩ := Core.exists_pieces (List.cons_ne_nil c rest) s.toList
  refine ⟨String.ofList first, others.map String.ofList, by rw [splitText, hp, hpieces]; rfl, ?_⟩
  rw [← Bool.not_eq_true, contains_iff, hp, ← hfirst, ← String.toList_inj, String.toList_ofList]

end

/-- how reading fails: with an error of one of these kinds, or by a panic -/
inductive Failure where
  | parsingError (text : String)
  | other (text : String)
  | panic
deriving DecidableEq, Repr

/-- `parts[i]` -/
def part (parts : List String) (i : ℕ) : Except Failure String := (parts[i]?).elim (.error .panic) .ok

/-! ## Transports and encodings -/

inductive Transport where
  | quic
  | webSocket
  | secureWebSocket
  | httpServer
  | grpcServer
deriving DecidableEq, Repr

def Transport.toString : Transport → String
  | .quic => "quic"
  | .webSocket => "ws"
  | .secureWebSocket => "wss"
  | .httpServer => "http_server"
  | .grpcServer => "grpc_server"

/-- the features of the build that the list of transports depends on -/
structure Features where
  wsTransport : Bool
  httpServer : Bool
  grpcServer : Bool
deriving DecidableEq, Repr

def Transport.listSupported (features : Features) : List String :=
  [Transport.quic.toString] ++
    (if features.wsTransport then [Transport.webSocket.toString, Transport.secureWebSocket.toString] else []) ++
    (if features.httpServer then [Transport.httpServer.toString] else []) ++
    (if features.grpcServer then [Transport.grpcServer.toString] else [])

/-- `{:?}` of a list of transports; their names have nothing to escape -/
def debugNames (names : List String) : String := "[" ++ ", ".intercalate (names.map fun n => "\"" ++ n ++ "\"") ++ "]"

def Transport.fromStr (features : Features) (s : String) : Except Failure Transport :=
  match toLowercase s with
  | "quic" => .ok .quic
  | "websocket" | "web_socket" | "web-socket" | "ws" => .ok .webSocket
  | "wss" => .ok .secureWebSocket
  | "http" | "http_server" => .ok .httpServer
  | "grpc" | "grpc_server" => .ok .grpcServer
  | _ => .error (.parsingError ("failed parsing transport from string: " ++ s ++ ", available transports: " ++
    debugNames (listSupported features)))

inductive Encoding where
  | bincode
  | msgPack
  | json
deriving DecidableEq, Repr

def Encoding.toString : Encoding → String
  | .bincode => "bincode"
  | .msgPack => "msgpack"
  | .json => "json"

def Encoding.fromStr (s : String) : Except Failure Encoding :=
  match toLowercase s with
  | "bincode" | "bin" => .ok .bincode
  | "msgpack" | "messagepack" | "rmp" => .ok .msgPack
  | "json" => .ok .json
  | _ => .error (.other ("failed parsing encoding from string: " ++ s))

@[simp] theorem Transport.fromStr_toString (features : Features) (t : Transport) :
    Transport.fromStr features t.toString = .ok t := by
  cases t <;> rfl

@[simp] theorem Encoding.fromStr_toString (e : Encoding) : Encoding.fromStr e.toString = .ok e := by
  cases e <;> rfl

theorem Transport.fromStr_ne_panic (features : Features) (s : String) :
    Transport.fromStr features s ≠ .error .panic := by
  unfold Transport.fromStr
  split <;> simp

theorem Encoding.fromStr_ne_panic (s : String) : Encoding.fromStr s ≠ .error .panic := by
  unfold Encoding.fromStr
  split <;> simp

/-! ## Addresses -/

/-- socket addresses and urls, as the standard library and the `url` crate know them -/
structure Resolver (SocketAddr : Type) where
  /-- `SocketAddr::to_string` -/
  toString : SocketAddr → String
  /-- `str::to_socket_addrs`: the addresses that a text resolves to, if it does -/
  toSocketAddrs : String → Option (List SocketAddr)
  /-- `s.parse::<Url>()` is no error -/
  isUrl : String → Bool
  resolved : ∀ s addrs, toSocketAddrs s = some addrs → addrs ≠ []
  numeric : ∀ addr, '/' ∉ (toString addr).toList ∧ '@' ∉ (toString addr).toList

inductive Address (SocketAddr : Type) where
  | net (addr : SocketAddr)
  | netUrl (url : String)
  | file (path : String)
deriving DecidableEq, Repr

variable {SocketAddr : Type} (R : Resolver SocketAddr) (features : Features)

def Address.fromStr (s : String) : Except Failure (Address SocketAddr) :=
  match R.toSocketAddrs s with
  | some addrs => addrs.head?.elim (.error .panic) fun addr => .ok (.net addr)
  | none => if R.isUrl s then .ok (.netUrl s) else .ok (.file s)

def Address.toString : Address SocketAddr → String
  | .net addr => R.toString addr
  | .netUrl url => url
  | .file path => path

/-- the text of the address is read as the address itself -/
def Address.ReadsBack (a : Address SocketAddr) : Prop := Address.fromStr R (a.toString R) = .ok a

/-! ## Composite addresses -/

structure CompositeAddress (SocketAddr : Type) where
  encoding : Option Encoding
  transport : Option Transport
  address : Address SocketAddr
deriving DecidableEq, Repr

def CompositeAddress.fromStr (s : String) : Except Failure (CompositeAddress SocketAddr) :=
  if contains "://" s then do
    let split := splitText "://" s
    let head ← part split 0
    if contains "@" head then
      let split' := splitText "@" head
      let encoding ← Encoding.fromStr (← part split' 0)
      let transport ← Transport.fromStr features (← part split' 1)
      let address ← Address.fromStr R (← part split 1)
      return ⟨some encoding, some transport, address⟩
    else
      let transport ← Transport.fromStr features head
      let address ← Address.fromStr R (← part split 1)
      return ⟨none, some transport, address⟩
  else if contains "@" s then do
    let split := splitText "@" s
    let encoding ← Encoding.fromStr (← part split 0)
    let address ← Address.fromStr R (← part split 1)
    return ⟨some encoding, none, address⟩
  else do
    let address ← Address.fromStr R s
    return ⟨none, none, address⟩

def CompositeAddress.toString (c : CompositeAddress SocketAddr) : String :=
  let out := c.address.toString R
  let out := match c.transport with
    | some transport => transport.toString ++ "://" ++ out
    | none => out
  match c.encoding with
  | some encoding => encoding.toString ++ "@" ++ out
  | none => out

/-! ## No panics -/

theorem Address.fromStr_ne_panic (s : String) : Address.fromStr R s ≠ .error .panic := by
  unfold Address.fromStr
  cases haddrs : R.toSocketAddrs s with
  | none =>
    dsimp only
    split_ifs <;> simp
  | some addrs =>
    obtain ⟨addr, addrs, rfl⟩ := List.exists_cons_of_ne_nil (R.resolved s addrs haddrs)
    simp

theorem bind_ne_panic {α β : Type} {x : Except Failure α} {f : α → Except Failure β} (hx : x ≠ .error .panic)
    (hf : ∀ a, x = .ok a → f a ≠ .error .panic) : (x >>= f) ≠ .error .panic := by
  cases x with
  | error e => exact fun h => hx (congrArg Except.error (Except.error.inj h))
  | ok a => exact hf a rfl

theorem pure_ne_panic {α : Type} (a : α) : (pure a : Except Failure α) ≠ .error .panic := by
  rintro ⟨⟩

/-- a text with the pattern in it has a piece before and one behind it -/
theorem part_ne_panic {pattern s : String} {c : Char} {rest : List Char} (hp : pattern.toList = c :: rest)
    (h : contains pattern s = true) {i : ℕ} (hi : i < 2) : part (splitText pattern s) i ≠ .error .panic := by
  unfold contains Core.find at h
  rw [Option.isSome_map] at h
  obtain ⟨⟨front, back⟩, hcut⟩ := Option.isSome_iff_exists.mp h
  rw [hp] at hcut
  obtain ⟨first, others, hback, _⟩ := Core.exists_pieces (List.cons_ne_nil c rest) back
  rw [splitText, hp, Core.pieces_of_cut (List.cons_ne_nil c rest) hcut, hback]
  match i with
  | 0 => simp [part]
  | 1 => simp [part]

theorem CompositeAddress.fromStr_ne_panic (s : String) :
    CompositeAddress.fromStr R features s ≠ .error .panic := by
  have hscheme : "://".toList = ':' :: ['/', '/'] := rfl
  have hat : "@".toList = '@' :: [] := rfl
  unfold CompositeAddress.fromStr
  split_ifs with h₁ h₂
  · refine bind_ne_panic (part_ne_panic hscheme h₁ Nat.zero_lt_two) fun head _ => ?_
    split_ifs with h₃
    · refine bind_ne_panic (part_ne_panic hat h₃ Nat.zero_lt_two) fun first _ => ?_
      refine bind_ne_panic (Encoding.fromStr_ne_panic first) fun encoding _ => ?_
      refine bind_ne_panic (part_ne_panic hat h₃ Nat.one_lt_two) fun second _ => ?_
      refine bind_ne_panic (Transport.fromStr_ne_panic features second) fun transport _ => ?_
      refine bind_ne_panic (part_ne_panic hscheme h₁ Nat.one_lt_two) fun text _ => ?_
      exact bind_ne_panic (Address.fromStr_ne_panic R text) fun address _ => pure_ne_panic _
    · refine bind_ne_panic (Transport.fromStr_ne_panic features head) fun transport _ => ?_
      refine bind_ne_panic (part_ne_panic hscheme h₁ Nat.one_lt_two) fun text _ => ?_
      exact bind_ne_panic (Address.fromStr_ne_panic R text) fun address _ => pure_ne_panic _
  · refine bind_ne_panic (part_ne_panic hat h₂ Nat.zero_lt_two) fun first _ => ?_
    refine bind_ne_panic (Encoding.fromStr_ne_panic first) fun encoding _ => ?_
    refine bind_ne_panic (part_ne_panic hat h₂ Nat.one_lt_two) fun text _ => ?_
    exact bind_ne_panic (Address.fromStr_ne_panic R text) fun address _ => pure_ne_panic _
  · exact bind_ne_panic (Address.fromStr_ne_panic R s) fun address _ => pure_ne_panic _

/-! ## Round trips -/

variable {R} {features}

theorem Address.text_of_fromStr {s : String} {a : Address SocketAddr} (h : Address.fromStr R s = .ok a) :
    (∃ addr, a = .net addr) ∨ a.toString R = s := by
  unfold Address.fromStr at h
  split at h
  · rename_i addrs _
    cases hhead : addrs.head? with
    | none =>
      rw [hhead] at h
      exact absurd h (by simp)
    | some addr =>
      rw [hhead] at h
      exact Or.inl ⟨addr, (Except.ok.inj h).symm⟩
  · split_ifs at h
    · obtain rfl := Except.ok.inj h
      exact Or.inr rfl
    · obtain rfl := Except.ok.inj h
      exact Or.inr rfl

/-- the text of a socket address has nothing that the reader splits at -/
theorem contains_net (addr : SocketAddr) :
    contains "://" (R.toString addr) = false ∧ contains "@" (R.toString addr) = false := by
  obtain ⟨hslash, hat⟩ := R.numeric addr
  rw [← Bool.not_eq_true, ← Bool.not_eq_true, contains_iff, contains_iff]
  exact ⟨fun h => hslash (h.subset (by simp)), fun h => hat (h.subset (by simp))⟩

/-- of the pieces of the text of an address, only the whole text is read as the address -/
theorem Address.fromStr_first_iff {a : Address SocketAddr} (hback : a.ReadsBack R) {pattern first : String}
    (hpattern : pattern = "://" ∨ pattern = "@")
    (hfirst : first = a.toString R ↔ contains pattern (a.toString R) = false) :
    Address.fromStr R first = .ok a ↔ contains pattern (a.toString R) = false := by
  constructor
  · intro h
    rcases Address.text_of_fromStr h with ⟨addr, rfl⟩ | htext
    · rcases hpattern with rfl | rfl
      · exact (contains_net addr).1
      · exact (contains_net addr).2
    · exact hfirst.mp htext.symm
  · intro h
    rw [hfirst.mpr h]
    exact hback

namespace CompositeAddress

theorem fromStr_scheme (transport : Transport) (text : String) :
    ∃ first, (first = text ↔ contains "://" text = false) ∧
      CompositeAddress.fromStr R features (transport.toString ++ "://" ++ text) =
        (Address.fromStr R first).map fun address => ⟨none, some transport, address⟩ := by
  have hscheme : "://".toList = ':' :: ['/', '/'] := rfl
  have hcolon : ':' ∉ transport.toString.toList := by cases transport <;> decide
  have hat : contains "@" transport.toString = false := by cases transport <;> decide
  obtain ⟨first, others, hsplit, hfirst⟩ := exists_splitText hscheme text
  refine ⟨first, hfirst, ?_⟩
  unfold CompositeAddress.fromStr
  rw [if_pos (contains_append "://" _ _), splitText_append hscheme hcolon, hsplit]
  simp only [part, List.getElem?_cons_zero, List.getElem?_cons_succ, Option.elim, bind, Except.bind, hat,
    Transport.fromStr_toString]
  cases Address.fromStr R first <;> rfl

theorem fromStr_both (encoding : Encoding) (transport : Transport) (text : String) :
    ∃ first, (first = text ↔ contains "://" text = false) ∧
      CompositeAddress.fromStr R features (encoding.toString ++ "@" ++ (transport.toString ++ "://" ++ text)) =
        (Address.fromStr R first).map fun address => ⟨some encoding, some transport, address⟩ := by
  have hscheme : "://".toList = ':' :: ['/', '/'] := rfl
  let head := encoding.toString ++ "@" ++ transport.toString
  have hcolon : ':' ∉ head.toList := by cases encoding <;> cases transport <;> decide
  have hat : contains "@" head = true := contains_append "@" _ _
  have hhead : splitText "@" head = [encoding.toString, transport.toString] := by
    cases encoding <;> cases transport <;> decide
  obtain ⟨first, others, hsplit, hfirst⟩ := exists_splitText hscheme text
  refine ⟨first, hfirst, ?_⟩
  rw [← String.append_assoc, ← String.append_assoc]
  unfold CompositeAddress.fromStr
  rw [if_pos (contains_append "://" head text), splitText_append hscheme hcolon, hsplit]
  simp only [part, List.getElem?_cons_zero, List.getElem?_cons_succ, Option.elim, bind, Except.bind, if_pos hat, hhead,
    Transport.fromStr_toString, Encoding.fromStr_toString]
  cases Address.fromStr R first <;> rfl

theorem fromStr_encoding (encoding : Encoding) {text : String} (h : contains "://" text = false) :
    ∃ first, (first = text ↔ contains "@" text = false) ∧
      CompositeAddress.fromStr R features (encoding.toString ++ "@" ++ text) =
        (Address.fromStr R first).map fun address => ⟨some encoding, none, address⟩ := by
  have hscheme : "://".toList = ':' :: ['/', '/'] := rfl
  have hcolon : ':' ∉ (encoding.toString ++ "@").toList := by cases encoding <;> decide
  have hnone : contains "://" (encoding.toString ++ "@" ++ text) = false := by rw [contains_back_iff hscheme hcolon, h]
  have hat : '@' ∉ encoding.toString.toList := by cases encoding <;> decide
  obtain ⟨first, others, hsplit, hfirst⟩ := exists_splitText (show "@".toList = '@' :: [] from rfl) text
  refine ⟨first, hfirst, ?_⟩
  unfold CompositeAddress.fromStr
  rw [hnone, if_neg Bool.false_ne_true, if_pos (contains_append "@" _ _), splitText_append rfl hat, hsplit]
  simp only [part, List.getElem?_cons_zero, List.getElem?_cons_succ, Option.elim, bind, Except.bind,
    Encoding.fromStr_toString]
  cases Address.fromStr R first <;> rfl

theorem fromStr_plain {text : String} (h : contains "://" text = false) (hat : contains "@" text = false) :
    CompositeAddress.fromStr R features text =
      (Address.fromStr R text).map fun address => ⟨none, none, address⟩ := by
  unfold CompositeAddress.fromStr
  rw [h, hat, if_neg Bool.false_ne_true, if_neg Bool.false_ne_true]
  simp only [bind, Except.bind]
  cases Address.fromStr R text <;> rfl

/-- a text with a scheme in it is read with a transport -/
theorem transport_of_fromStr {s : String} (h : contains "://" s = true) {c : CompositeAddress SocketAddr}
    (hread : CompositeAddress.fromStr R features s = .ok c) : c.transport ≠ none := by
  unfold CompositeAddress.fromStr at hread
  rw [if_pos h] at hread
  obtain ⟨head, _, hread⟩ := Core.bind_eq_ok.1 hread
  split_ifs at hread
  · obtain ⟨_, _, hread⟩ := Core.bind_eq_ok.1 hread
    obtain ⟨_, _, hread⟩ := Core.bind_eq_ok.1 hread
    obtain ⟨_, _, hread⟩ := Core.bind_eq_ok.1 hread
    obtain ⟨_, _, hread⟩ := Core.bind_eq_ok.1 hread
    obtain ⟨_, _, hread⟩ := Core.bind_eq_ok.1 hread
    obtain ⟨_, _, hread⟩ := Core.bind_eq_ok.1 hread
    obtain rfl := Except.ok.inj hread
    exact Option.some_ne_none _
  · obtain ⟨_, _, hread⟩ := Core.bind_eq_ok.1 hread
    obtain ⟨_, _, hread⟩ := Core.bind_eq_ok.1 hread
    obtain ⟨_, _, hread⟩ := Core.bind_eq_ok.1 hread
    obtain rfl := Except.ok.inj hread
    exact Option.some_ne_none _

/-- a text with the mark of an encoding in it, and no scheme, is read with an encoding -/
theorem encoding_of_fromStr {s : String} (h : contains "://" s = false) (hat : contains "@" s = true)
    {c : CompositeAddress SocketAddr} (hread : CompositeAddress.fromStr R features s = .ok c) : c.encoding ≠ none := by
  unfold CompositeAddress.fromStr at hread
  rw [h, if_neg Bool.false_ne_true, if_pos hat] at hread
  obtain ⟨_, _, hread⟩ := Core.bind_eq_ok.1 hread
  obtain ⟨_, _, hread⟩ := Core.bind_eq_ok.1 hread
  obtain ⟨_, _, hread⟩ := Core.bind_eq_ok.1 hread
  obtain ⟨_, _, hread⟩ := Core.bind_eq_ok.1 hread
  obtain rfl := Except.ok.inj hread
  exact Option.some_ne_none _

/-- the text of the address has no scheme in it, and no mark of an encoding where no scheme stands before it -/
def Apart (R : Resolver SocketAddr) (c : CompositeAddress SocketAddr) : Prop :=
  contains "://" (c.address.toString R) = false ∧
    (c.transport = none → contains "@" (c.address.toString R) = false)

/-- where a text is read by reading one piece as the address -/
theorem read_iff {encoding : Option Encoding} {transport : Option Transport} {a : Address SocketAddr}
    (hback : a.ReadsBack R) {pattern first s : String} (hpattern : pattern = "://" ∨ pattern = "@")
    (hfirst : first = a.toString R ↔ contains pattern (a.toString R) = false)
    (hread : CompositeAddress.fromStr R features s =
      (Address.fromStr R first).map fun address => ⟨encoding, transport, address⟩) :
    CompositeAddress.fromStr R features s = .ok ⟨encoding, transport, a⟩ ↔
      contains pattern (a.toString R) = false := by
  rw [← Address.fromStr_first_iff hback hpattern hfirst, hread]
  cases Address.fromStr R first with
  | error e => exact ⟨fun h => absurd h (by rintro ⟨⟩), fun h => absurd h (by rintro ⟨⟩)⟩
  | ok a' =>
    constructor
    · intro h
      exact congrArg Except.ok (CompositeAddress.mk.inj (Except.ok.inj h)).2.2
    · intro h
      rw [Except.ok.inj h]
      rfl

theorem fromStr_toString_iff {c : CompositeAddress SocketAddr} (hback : c.address.ReadsBack R) :
    CompositeAddress.fromStr R features (c.toString R) = .ok c ↔ c.Apart R := by
  obtain ⟨encoding, transport, a⟩ := c
  cases transport with
  | some transport =>
    have hapart : Apart R ⟨encoding, some transport, a⟩ ↔ contains "://" (a.toString R) = false :=
      and_iff_left fun h => absurd h (Option.some_ne_none transport)
    rw [hapart]
    cases encoding with
    | some encoding =>
      obtain ⟨first, hfirst, hread⟩ := @fromStr_both _ R features encoding transport (a.toString R)
      exact read_iff hback (.inl rfl) hfirst hread
    | none =>
      obtain ⟨first, hfirst, hread⟩ := @fromStr_scheme _ R features transport (a.toString R)
      exact read_iff hback (.inl rfl) hfirst hread
  | none =>
    cases hscheme : contains "://" (a.toString R) with
    | true =>
      -- the scheme of the address itself is taken for the transport
      have hin : contains "://" (CompositeAddress.toString R ⟨encoding, none, a⟩) = true := by
        cases encoding with
        | some encoding => exact contains_back hscheme _
        | none => exact hscheme
      exact ⟨fun h => absurd rfl (transport_of_fromStr hin h), fun h => absurd (h.1.symm.trans hscheme) (by decide)⟩
    | false =>
      have hapart : Apart R ⟨encoding, none, a⟩ ↔ contains "@" (a.toString R) = false :=
        ⟨fun h => h.2 rfl, fun h => ⟨hscheme, fun _ => h⟩⟩
      rw [hapart]
      cases encoding with
      | some encoding =>
        obtain ⟨first, hfirst, hread⟩ := @fromStr_encoding _ R features encoding _ hscheme
        exact read_iff hback (.inr rfl) hfirst hread
      | none =>
        cases hat : contains "@" (a.toString R) with
        | true =>
          exact ⟨fun h => absurd rfl (encoding_of_fromStr hscheme hat h), fun h => absurd h (by decide)⟩
        | false =>
          exact (read_iff hback (.inr rfl) ⟨fun _ => hat, fun _ => rfl⟩ (fromStr_plain hscheme hat)).trans
            (by rw [hat])

end CompositeAddress

/-- composite addresses of which the address is read back from its own text -/
structure Legible (R : Resolver SocketAddr) extends CompositeAddress SocketAddr where
  readsBack : address.ReadsBack R

/-- **Composite addresses.** No text makes the reader panic, and a composite address whose address has a text of its own
is read back from its text exactly if that of the address has no scheme in it, and no mark of an encoding unless a
transport stands before it. -/
theorem composite_iff (R : Resolver SocketAddr) (features : Features) :
    (∀ s, CompositeAddress.fromStr R features s ≠ .error .panic) ∧
      ∀ c : Legible R,
        CompositeAddress.fromStr R features (c.toCompositeAddress.toString R) = .ok c.toCompositeAddress ↔
          c.toCompositeAddress.Apart R :=
  ⟨CompositeAddress.fromStr_ne_panic R features, fun c => CompositeAddress.fromStr_toString_iff c.readsBack⟩

/-- a machine without a network: one socket address, and urls are texts that start as those of the web do -/
def local9123 : Resolver Unit where
  toString _ := "127.0.0.1:9123"
  toSocketAddrs s := if s = "127.0.0.1:9123" then some [()] else none
  isUrl s := "http://".toList.isPrefixOf s.toList
  resolved s addrs h := by
    split_ifs at h
    obtain rfl := Option.some.inj h
    exact List.cons_ne_nil _ _
  numeric _ := by decide

/-- of `bincode@ws://http://127.0.0.1:9123/sim` only `http` is read as the address, which makes it a path -/
theorem url_lost : ¬ ∀ c : Legible local9123,
    CompositeAddress.fromStr local9123 ⟨true, true, true⟩ (c.toCompositeAddress.toString local9123) =
      .ok c.toCompositeAddress := by
  intro h
  have hurl := h ⟨⟨some .bincode, some .webSocket, .netUrl "http://127.0.0.1:9123/sim"⟩, by
    unfold Address.ReadsBack; decide⟩
  exact absurd hurl (by decide)

end BigWorlds.Net
