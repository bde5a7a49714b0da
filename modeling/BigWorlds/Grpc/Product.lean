/-
Query products in gRPC messages (`server/grpc/query_conversions.rs`).

Two shapes of products have a message of their own, and everything else is sent as the empty product. The entries of a
map are sent in the order in which the map is iterated, which is an argument, each under the text of its address.

- `product_lossless_iff`: a product comes back, or is refused with an error, exactly if it is a list of values, the empty
  product, or a map whose addresses have types that are read;
- `product_lost`: a list of texts arrives as the empty product, and the address of a list panics.
-/
import BigWorlds.Core.Maps
import BigWorlds.Grpc.Value
import BigWorlds.Query.Product

namespace BigWorlds.Grpc

/-! ## Messages and conversions -/

namespace Wire

/-- the `oneof data` of message `QueryProduct` -/
inductive Data where
  | varList (vars : List Var)
  | addressedVarMap (entries : List (String × Option Var))
  | empty
deriving Repr

/-- message `QueryProduct` -/
structure QueryProduct where
  data : Option Data
deriving Repr

end Wire

/-- the entries of a map in the order in which it is iterated -/
structure Iteration where
  entries : FnvHashMap Address Var → AList fun _ : Address => Var
  complete : ∀ map, (entries map).toFinmap = map

variable (it : Iteration)

def fromEntry (e : Σ _ : Address, Var) : String × Option Wire.Var := (e.1.toString, some (fromVar e.2))

/-- `From<QueryProduct> for bigworlds::QueryProduct` -/
def fromProduct : QueryProduct → Wire.QueryProduct
  | .var vars => ⟨some (.varList (fromVars vars))⟩
  | .addressedVar map => ⟨some (.addressedVarMap ((it.entries map).entries.map fromEntry))⟩
  | .empty => ⟨some .empty⟩
  | _ => ⟨some .empty⟩

def readEntryAddress (text : String) : Except ConversionFailure Address :=
  match Address.fromStr text with
  | .ok a => .ok a
  | .error e => .error (.address e)

def readEntryValue : Option Wire.Var → Except ConversionFailure Var
  | some w => tryFromVar w
  | none => .error (.failedConversion "Missing value in AddressedVarEntry")

/-- the entries of a message, inserted one after the other -/
def insertEntries (map : FnvHashMap Address Var) :
    List (String × Option Wire.Var) → Except ConversionFailure (FnvHashMap Address Var)
  | [] => .ok map
  | (text, value) :: entries => do
    let address ← readEntryAddress text
    let v ← readEntryValue value
    insertEntries (map.insert address v) entries

/-- `TryFrom<bigworlds::QueryProduct> for QueryProduct` -/
def tryFromProduct : Wire.QueryProduct → Except ConversionFailure QueryProduct
  | ⟨some (.varList vars)⟩ => do return .var (← tryFromVars vars)
  | ⟨some (.addressedVarMap entries)⟩ => do return .addressedVar (← insertEntries ∅ entries)
  | ⟨some .empty⟩ => .ok .empty
  | ⟨none⟩ => .error (.failedConversion "QueryProduct has no data variant")

/-! ## What is lost -/

/-- the product comes back as it is, or the conversion reports an error -/
def Lossless (p : QueryProduct) : Prop :=
  match tryFromProduct (fromProduct it p) with
  | .ok q => q = p
  | .error e => e ≠ .address .panic

/-- a list of values, the empty product, or a map whose addresses have types that are read -/
def Carried : QueryProduct → Prop
  | .var _ | .empty => True
  | .addressedVar map => ∀ a ∈ map, a.varType.readable = true
  | _ => False

/-- the names in the addresses are free of the separator -/
def Named : QueryProduct → Prop
  | .addressedVar map => ∀ a ∈ map, a.Named
  | _ => True

/-- the maps in the values are in key order, as a `BTreeMap` is -/
def OrderedProduct : QueryProduct → Prop
  | .var vars => OrderedAll vars
  | .addressedVar map => ∀ a v, map.lookup a = some v → Ordered v
  | _ => True

/-- a product as the code has it -/
abbrev StoredProduct := { p : QueryProduct // OrderedProduct p }

/-! ## Entries -/

/-- entries under addresses that are read are inserted as they are -/
theorem insertEntries_map {l : List (Σ _ : Address, Var)} (map : FnvHashMap Address Var)
    (hnamed : ∀ e ∈ l, e.1.Named) (hread : ∀ e ∈ l, e.1.varType.readable = true) (hordered : ∀ e ∈ l, Ordered e.2) :
    insertEntries map (l.map fromEntry) = .ok (l.foldl (fun map e => map.insert e.1 e.2) map) := by
  induction l generalizing map with
  | nil => rfl
  | cons e l ih =>
    have haddress : readEntryAddress e.1.toString = .ok e.1 := by
      rw [readEntryAddress, (Address.fromStr_toString_iff (hnamed e List.mem_cons_self)).mpr (hread e List.mem_cons_self)]
    have hvalue : readEntryValue (some (fromVar e.2)) = .ok e.2 := tryFrom_from e.2 (hordered e List.mem_cons_self)
    have hrest := ih (map.insert e.1 e.2) (fun e he => hnamed e (List.mem_cons_of_mem _ he))
      (fun e he => hread e (List.mem_cons_of_mem _ he)) fun e he => hordered e (List.mem_cons_of_mem _ he)
    rw [List.map_cons, fromEntry, insertEntries, haddress, hvalue, List.foldl_cons, ← hrest]
    rfl

/-- an entry under an address that is not read panics, wherever it stands -/
theorem insertEntries_panic {l : List (Σ _ : Address, Var)} (map : FnvHashMap Address Var)
    (hnamed : ∀ e ∈ l, e.1.Named) (hread : ∃ e ∈ l, e.1.varType.readable = false) (hordered : ∀ e ∈ l, Ordered e.2) :
    insertEntries map (l.map fromEntry) = .error (.address .panic) := by
  induction l generalizing map with
  | nil =>
    obtain ⟨e, he, _⟩ := hread
    exact absurd he List.not_mem_nil
  | cons e l ih =>
    have hn : e.1.Named := hnamed e List.mem_cons_self
    rw [List.map_cons, fromEntry, insertEntries]
    cases hr : e.1.varType.readable with
    | false =>
      rw [readEntryAddress, Address.fromStr_toString_panic hn hr]
      rfl
    | true =>
      have haddress : readEntryAddress e.1.toString = .ok e.1 := by
        rw [readEntryAddress, (Address.fromStr_toString_iff hn).mpr hr]
      have hvalue : readEntryValue (some (fromVar e.2)) = .ok e.2 := tryFrom_from e.2 (hordered e List.mem_cons_self)
      have hlater : ∃ e ∈ l, e.1.varType.readable = false := by
        obtain ⟨e', he', hr'⟩ := hread
        rcases List.mem_cons.mp he' with rfl | he'
        · exact absurd (hr.symm.trans hr') (by simp)
        · exact ⟨e', he', hr'⟩
      rw [haddress, hvalue]
      exact ih _ (fun e he => hnamed e (List.mem_cons_of_mem _ he)) hlater
        fun e he => hordered e (List.mem_cons_of_mem _ he)

/-! ## Products -/

theorem lookup_of_mem_entries {map : FnvHashMap Address Var} {e : Σ _ : Address, Var}
    (h : e ∈ (it.entries map).entries) : map.lookup e.1 = some e.2 := by
  have hlookup : (it.entries map).lookup e.1 = some e.2 := List.mem_dlookup (it.entries map).nodupKeys h
  rw [← Finmap.lookup_toFinmap, it.complete] at hlookup
  exact hlookup

theorem mem_entries_of_mem {map : FnvHashMap Address Var} {a : Address} (h : a ∈ map) :
    ∃ e ∈ (it.entries map).entries, e.1 = a := by
  obtain ⟨v, hv⟩ := Finmap.mem_iff.mp h
  rw [← it.complete map, Finmap.lookup_toFinmap] at hv
  exact ⟨⟨a, v⟩, List.of_mem_dlookup (Option.mem_def.mpr hv), rfl⟩

theorem toFinmap_entries (map : FnvHashMap Address Var) : (it.entries map).entries.toFinmap = map := by
  apply Finmap.ext_lookup
  intro a
  calc (it.entries map).entries.toFinmap.lookup a
      = (it.entries map).lookup a := Finmap.dlookup_list_toFinmap a _
    _ = (it.entries map).toFinmap.lookup a := (Finmap.lookup_toFinmap a _).symm
    _ = map.lookup a := by rw [it.complete]

/-- the map of a message that is read is the one that was sent -/
theorem addressedVar_round_trip {map : FnvHashMap Address Var} (hnamed : ∀ a ∈ map, a.Named)
    (hread : ∀ a ∈ map, a.varType.readable = true) (hordered : ∀ a v, map.lookup a = some v → Ordered v) :
    tryFromProduct (fromProduct it (.addressedVar map)) = .ok (.addressedVar map) := by
  have hmem : ∀ e ∈ (it.entries map).entries, e.1 ∈ map := fun e he =>
    Finmap.mem_iff.mpr ⟨e.2, lookup_of_mem_entries it he⟩
  have hinsert := insertEntries_map ∅ (fun e he => hnamed e.1 (hmem e he)) (fun e he => hread e.1 (hmem e he))
    fun e he => hordered e.1 e.2 (lookup_of_mem_entries it he)
  rw [Core.Maps.foldl_insert_eq (it.entries map).nodupKeys, Finmap.union_empty, toFinmap_entries] at hinsert
  rw [fromProduct, tryFromProduct, hinsert]
  rfl

theorem addressedVar_panics {map : FnvHashMap Address Var} (hnamed : ∀ a ∈ map, a.Named)
    (hread : ∃ a ∈ map, a.varType.readable = false) (hordered : ∀ a v, map.lookup a = some v → Ordered v) :
    tryFromProduct (fromProduct it (.addressedVar map)) = .error (.address .panic) := by
  have hentry : ∃ e ∈ (it.entries map).entries, e.1.varType.readable = false := by
    obtain ⟨a, ha, hr⟩ := hread
    obtain ⟨e, he, rfl⟩ := mem_entries_of_mem it ha
    exact ⟨e, he, hr⟩
  have hmem : ∀ e ∈ (it.entries map).entries, e.1 ∈ map := fun e he =>
    Finmap.mem_iff.mpr ⟨e.2, lookup_of_mem_entries it he⟩
  have hinsert := insertEntries_panic ∅ (fun e he => hnamed e.1 (hmem e he)) hentry
    fun e he => hordered e.1 e.2 (lookup_of_mem_entries it he)
  rw [fromProduct, tryFromProduct, hinsert]
  rfl

/-- **Products in messages.** A product with names free of the separator is not lost exactly if it is carried. -/
theorem product_lossless_iff (p : StoredProduct) (h : Named p.1) : Lossless it p.1 ↔ Carried p.1 := by
  obtain ⟨p, hp⟩ := p
  cases p with
  | var vars =>
    refine ⟨fun _ => trivial, fun _ => ?_⟩
    rw [Lossless, fromProduct, tryFromProduct, tryFroms_froms vars hp]
    rfl
  | empty => exact ⟨fun _ => trivial, fun _ => rfl⟩
  | addressedVar map =>
    constructor
    · intro hloss a ha
      by_contra hr
      rw [Lossless, addressedVar_panics it h ⟨a, ha, Bool.eq_false_iff.mpr hr⟩ hp] at hloss
      exact hloss rfl
    · intro hread
      rw [Lossless, addressedVar_round_trip it h hread hp]
  -- the shapes without a message of their own arrive as the empty product
  | nativeAddressedVar map => exact ⟨fun hloss => absurd hloss (by rintro ⟨⟩), fun hc => hc.elim⟩
  | nameAddressedVar map => exact ⟨fun hloss => absurd hloss (by rintro ⟨⟩), fun hc => hc.elim⟩
  | nameAddressedVars map => exact ⟨fun hloss => absurd hloss (by rintro ⟨⟩), fun hc => hc.elim⟩
  | addressedTyped map => exact ⟨fun hloss => absurd hloss (by rintro ⟨⟩), fun hc => hc.elim⟩
  | orderedVar n vec => exact ⟨fun hloss => absurd hloss (by rintro ⟨⟩), fun hc => hc.elim⟩
  | string vec => exact ⟨fun hloss => absurd hloss (by rintro ⟨⟩), fun hc => hc.elim⟩

theorem exists_entries (map : FnvHashMap Address Var) : ∃ l : AList fun _ : Address => Var, l.toFinmap = map :=
  Finmap.induction_on map fun l => ⟨l, rfl⟩

/-- each map in some order -/
noncomputable def anyIteration : Iteration where
  entries map := (exists_entries map).choose
  complete map := (exists_entries map).choose_spec

/-- the value of one address comes back -/
theorem product_lossless_address :
    Lossless anyIteration (.addressedVar (Finmap.singleton ⟨"e", "c", .int, "x"⟩ (.int 1))) := by
  have hmem : ∀ a ∈ (Finmap.singleton ⟨"e", "c", .int, "x"⟩ (.int 1) : FnvHashMap Address Var),
      a = ⟨"e", "c", .int, "x"⟩ := fun a ha => (Finmap.mem_singleton a _ _).mp ha
  have hordered : OrderedProduct (.addressedVar (Finmap.singleton ⟨"e", "c", .int, "x"⟩ (.int 1))) := by
    intro a v hv
    obtain rfl := hmem a (Finmap.mem_of_lookup_eq_some hv)
    rw [Finmap.lookup_singleton_eq] at hv
    obtain rfl := Option.some.inj hv
    trivial
  refine (product_lossless_iff anyIteration ⟨_, hordered⟩ ?_).mpr ?_
  · intro a ha
    obtain rfl := hmem a ha
    exact ⟨by decide, by decide, by decide⟩
  · intro a ha
    obtain rfl := hmem a ha
    rfl

/-- a list of texts is delivered as the empty product; an entry under the address of a list panics -/
theorem product_lost :
    tryFromProduct (fromProduct anyIteration (.string ["a"])) = .ok .empty ∧
      ¬ Lossless anyIteration (.string ["a"]) ∧
      insertEntries ∅ [fromEntry ⟨⟨"e", "c", .list, "x"⟩, .list []⟩] = .error (.address .panic) := by
  refine ⟨rfl, ?_, rfl⟩
  intro h
  exact absurd (show QueryProduct.empty = .string ["a"] from h) (by rintro ⟨⟩)

end BigWorlds.Grpc
