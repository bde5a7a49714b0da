/-
Query products and their merging (`query.rs`). `merge` is partial: the arms that the source leaves to `todo!()` and
`unimplemented!()` panic, which is `none` here.

An addressed product of the plain layout merges with its like and into an empty one; of the typed layout it merges with
nothing, not even with an empty product.
-/
import BigWorlds.Model.Entity

namespace BigWorlds

inductive Layout where
  | var
  | string
  | typed
deriving DecidableEq, Repr

/-- `AddressedTypedMap` -/
structure AddressedTypedMap where
  strings : FnvHashMap Address String
  ints : FnvHashMap Address Int32
  floats : FnvHashMap Address UInt32
  bools : FnvHashMap Address Bool
deriving DecidableEq

inductive QueryProduct where
  | nativeAddressedVar (map : FnvHashMap (EntityName × CompName × VarName) Var)
  | addressedVar (map : FnvHashMap Address Var)
  | nameAddressedVar (map : FnvHashMap EntityName Var)
  | nameAddressedVars (map : FnvHashMap EntityName (List Var))
  | addressedTyped (map : AddressedTypedMap)
  | orderedVar (n : UInt32) (vec : List Var)
  | var (vec : List Var)
  | string (vec : List String)
  | empty

namespace QueryProduct

/-- `none` where the source panics; `extend` keeps the later value of a key -/
def merge : QueryProduct → QueryProduct → Option QueryProduct
  | .empty, other => some other
  | .nameAddressedVar map, .nameAddressedVar map' => some (.nameAddressedVar (map' ∪ map))
  | .nameAddressedVars map, .nameAddressedVars map' => some (.nameAddressedVars (map' ∪ map))
  | .addressedVar map, .addressedVar map' => some (.addressedVar (map' ∪ map))
  | .var vec, .var vec' => some (.var (vec ++ vec'))
  | .string vec, .string vec' => some (.string (vec ++ vec'))
  | _, _ => none

/-- what the local evaluation of an addressed query answers in the given layout; it panics for `Layout::String` -/
def Addressed (layout : Layout) (product : QueryProduct) : Prop :=
  match layout with
  | .var => ∃ map, product = .addressedVar map
  | .typed => ∃ map, product = .addressedTyped map
  | .string => False

/-- what comes up while the answers of an addressed query are merged -/
def Mergeable (product : QueryProduct) : Prop := product = .empty ∨ ∃ layout, Addressed layout product

/-- the product holds the entries of these products and nothing else -/
def UnionOf (parts : List QueryProduct) (product : QueryProduct) : Prop :=
  match product with
  | .addressedVar map =>
    (∀ part ∈ parts, ∃ map', part = .addressedVar map' ∧ ∀ a, a ∈ map' → a ∈ map) ∧
      ∀ a x, map.lookup a = some x → ∃ map', .addressedVar map' ∈ parts ∧ map'.lookup a = some x
  | .empty => parts = []
  | product => parts = [product]

theorem unionOf_singleton {layout : Layout} {product : QueryProduct} (h : Addressed layout product) :
    UnionOf [product] product := by
  cases layout with
  | var =>
    obtain ⟨map, rfl⟩ := h
    refine ⟨fun part hp => ?_, fun a x hx => ⟨map, List.mem_singleton_self _, hx⟩⟩
    exact ⟨map, List.mem_singleton.mp hp, fun _ ha => ha⟩
  | typed =>
    obtain ⟨map, rfl⟩ := h
    rfl
  | string => exact h.elim

theorem merge_mergeable {p p' q : QueryProduct} (h : Mergeable p) (h' : Mergeable p') (hq : p.merge p' = some q) :
    Mergeable q := by
  rcases h with rfl | ⟨layout, h⟩
  · obtain rfl : p' = q := Option.some.inj hq
    exact h'
  · cases layout with
    | var =>
      obtain ⟨map, rfl⟩ := h
      cases p' with
      | addressedVar map' =>
        obtain rfl : .addressedVar (map' ∪ map) = q := Option.some.inj hq
        exact .inr ⟨.var, _, rfl⟩
      | _ => cases hq
    | typed =>
      obtain ⟨map, rfl⟩ := h
      cases hq
    | string => exact h.elim

/-- merging collects the entries of both sides -/
theorem UnionOf.merge {parts parts' : List QueryProduct} {p p' q : QueryProduct} (h : UnionOf parts p)
    (h' : UnionOf parts' p') (hp : Mergeable p) (hq : p.merge p' = some q) : UnionOf (parts ++ parts') q := by
  rcases hp with rfl | ⟨layout, hlayout⟩
  · obtain rfl : p' = q := Option.some.inj hq
    rw [show parts = [] from h, List.nil_append]
    exact h'
  · cases layout with
    | string => exact hlayout.elim
    | typed =>
      obtain ⟨map, rfl⟩ := hlayout
      cases hq
    | var =>
      obtain ⟨map, rfl⟩ := hlayout
      cases p' with
      | addressedVar map' =>
        obtain rfl : .addressedVar (map' ∪ map) = q := Option.some.inj hq
        obtain ⟨hin, hout⟩ := h
        obtain ⟨hin', hout'⟩ := h'
        refine ⟨fun part hpart => ?_, fun a x hx => ?_⟩
        · rcases List.mem_append.mp hpart with hpart | hpart
          · obtain ⟨m, hm, hsub⟩ := hin part hpart
            exact ⟨m, hm, fun a ha => Finmap.mem_union.mpr (.inr (hsub a ha))⟩
          · obtain ⟨m, hm, hsub⟩ := hin' part hpart
            exact ⟨m, hm, fun a ha => Finmap.mem_union.mpr (.inl (hsub a ha))⟩
        · by_cases ha : a ∈ map'
          · rw [Finmap.lookup_union_left ha] at hx
            obtain ⟨m, hm, hmx⟩ := hout' a x hx
            exact ⟨m, List.mem_append_right _ hm, hmx⟩
          · rw [Finmap.lookup_union_right ha] at hx
            obtain ⟨m, hm, hmx⟩ := hout a x hx
            exact ⟨m, List.mem_append_left _ hm, hmx⟩
      | _ => cases hq

end QueryProduct

end BigWorlds
