/-
The query language (`query.rs`): which entities are selected and what of them is returned. Floats are their bits.
-/
import BigWorlds.Model.Entity

namespace BigWorlds

abbrev EntityId := UInt32

/-- the coordinates of an entity and how far from them others may be -/
structure Distance where
  addressX : Address
  addressY : Address
  addressZ : Address
  maxX : UInt32
  maxY : UInt32
  maxZ : UInt32
deriving DecidableEq, Repr

inductive NodeFilter where
  | local_ (node : Option UInt32)
  | remote (node : Option UInt32)
deriving DecidableEq, Repr

inductive Filter where
  | allComponents (names : List CompName)
  | someComponents (names : List CompName)
  | component (name : CompName)
  | name (names : List EntityName)
  | id (ids : List EntityId)
  | varRange (addr : LocalAddress) (start end_ : Var)
  | attrRange (attr : String) (start end_ : Var)
  | distance (d : Distance)
  | distanceMultiPoint (points : List Distance)
  | node (node : NodeFilter)
deriving DecidableEq, Repr

/-- `query::Map` -/
inductive Mapping where
  | all
  | selectAddrs (addresses : List Address)
  | components (names : List CompName)
  | component (name : CompName)
  | var (name : VarName)
  | varType (t : VarType)
deriving DecidableEq, Repr

end BigWorlds
