/-
Partial products of one query, merged in every order and grouping (`query.rs` `QueryProduct::merge`, with what the local
evaluation of `query/process.rs` returns).

The operands are what workers return for one description and layout, and empty products. Products of five shapes are
joined; a product that is not empty is joined with no empty one, and products described natively or laid out by type are
joined with nothing.

- `merge_iff`: a grouping gives the entries of all operands and nothing else exactly if in each of its nodes the left
  side is all empty, or the shape is joined and the right side is not all empty; every order and grouping of a list does
  exactly if it has one operand, or all are empty, or none is and the shape is joined;
- `merge_fails`: a list of values merged with an empty product, and two products described natively.
-/
import BigWorlds.Core.Grouping
import BigWorlds.Query.Shape

namespace BigWorlds.Merging

open BigWorlds.Core (Grouping)

variable (format : Var → String) (description : Description) (layout : Layout)

/-- what a worker returns for a query, with the data it was made from -/
structure Returned where
  data : MappedData
  product : QueryProduct
  returned : productOf format description layout data = some product

/-- an operand of a merge, none for the empty product -/
abbrev Operand := Option (Returned format description layout)

variable {format description layout}

def product : Operand format description layout → QueryProduct
  | some r => r.product
  | none => .empty

def entities : Operand format description layout → List EntityName
  | some r => entitiesOf r.data
  | none => []

/-- operands of different workers, which hold different entities -/
def Apart (o o' : Operand format description layout) : Prop := ∀ n ∈ entities o, n ∉ entities o'

/-- the merged product holds the entries of the products and nothing else, and is empty only if they all are -/
structure Collects (ps : List QueryProduct) (r : QueryProduct) : Prop where
  entries : r.entries = (ps.map QueryProduct.entries).sum
  empty : r = .empty ↔ ∀ p ∈ ps, p = .empty

/-- the merge of a grouping succeeds and collects what its operands hold -/
def Merges (t : Grouping (Operand format description layout)) : Prop :=
  ∃ r, t.eval QueryProduct.merge product = some r ∧ Collects (t.leaves.map product) r

def AllEmpty (t : Grouping (Operand format description layout)) : Prop := ∀ o ∈ t.leaves, o = none

/-- two groups that are joined: nothing on the left, or something on the right and a shape that is joined -/
def Joins (l r : Grouping (Operand format description layout)) : Prop :=
  AllEmpty l ∨ Extends description layout = true ∧ ¬ AllEmpty r

/-! ## One merge -/

theorem product_eq_empty_iff {o : Operand format description layout} : product o = .empty ↔ o = none := by
  cases o with
  | none => exact ⟨fun _ => rfl, fun _ => rfl⟩
  | some r =>
    constructor
    · intro h
      exact absurd h (productOf_shaped r.returned).ne_empty
    · intro h
      exact absurd h (by simp)

/-- what a merged product stands for: the entries, the shape, and the entities the entries are about -/
structure Stands (os : List (Operand format description layout)) (r : QueryProduct) : Prop where
  collects : Collects (os.map product) r
  shaped : r ≠ .empty → Shaped description layout r
  within : Extends description layout = true → ∀ e ∈ r.entries, ∀ n, e.entity = some n → n ∈ os.flatMap entities

theorem Stands.empty_iff {os : List (Operand format description layout)} {r : QueryProduct} (h : Stands os r) :
    r = .empty ↔ ∀ o ∈ os, o = none := by
  rw [h.collects.empty]
  constructor
  · intro hall o ho
    exact product_eq_empty_iff.1 (hall _ (List.mem_map_of_mem ho))
  · intro hall p hp
    obtain ⟨o, ho, rfl⟩ := List.mem_map.mp hp
    exact product_eq_empty_iff.2 (hall o ho)

theorem stands_leaf (o : Operand format description layout) : Stands [o] (product o) := by
  refine ⟨⟨?_, ?_⟩, ?_, ?_⟩
  · simp
  · simp
  · intro hne
    cases o with
    | none => exact absurd rfl hne
    | some r => exact productOf_shaped r.returned
  · intro hext e he n hn
    cases o with
    | none => exact absurd he (Multiset.notMem_zero e)
    | some r =>
      rw [List.flatMap_singleton]
      exact entity_of_productOf hext r.returned he hn

/-- the keys of two maps whose entries are about different entities are different -/
theorem disjoint_of_entities {κ ν : Type} [DecidableEq κ] {entry : κ → ν → Entry} (name : κ → EntityName)
    (hname : ∀ k v, (entry k v).entity = some (name k)) {map map' : FnvHashMap κ ν} {ns ns' : List EntityName}
    (hns : ∀ n ∈ ns, n ∉ ns') (h : ∀ e ∈ mapEntries entry map, ∀ n, e.entity = some n → n ∈ ns)
    (h' : ∀ e ∈ mapEntries entry map', ∀ n, e.entity = some n → n ∈ ns') : Finmap.Disjoint map' map := by
  intro k hk' hk
  obtain ⟨v, hv⟩ := Finmap.mem_iff.mp hk
  obtain ⟨v', hv'⟩ := Finmap.mem_iff.mp hk'
  have he : entry k v ∈ mapEntries entry map :=
    Multiset.mem_map.mpr ⟨⟨k, v⟩, Core.Maps.mem_entries_iff.mpr hv, rfl⟩
  have he' : entry k v' ∈ mapEntries entry map' :=
    Multiset.mem_map.mpr ⟨⟨k, v'⟩, Core.Maps.mem_entries_iff.mpr hv', rfl⟩
  exact hns (name k) (h _ he _ (hname k v)) (h' _ he' _ (hname k v'))

theorem mapEntries_union {κ ν : Type} [DecidableEq κ] {entry : κ → ν → Entry} {map map' : FnvHashMap κ ν}
    (h : Finmap.Disjoint map' map) :
    mapEntries entry (map' ∪ map) = mapEntries entry map + mapEntries entry map' := by
  rw [mapEntries, Core.Maps.entries_union h, Multiset.map_add, add_comm]
  rfl

/-- products of one joined shape and of different entities are joined -/
theorem merge_shaped {p p' : QueryProduct} {ns ns' : List EntityName} (hext : Extends description layout = true)
    (hp : Shaped description layout p) (hp' : Shaped description layout p') (hns : ∀ n ∈ ns, n ∉ ns')
    (h : ∀ e ∈ p.entries, ∀ n, e.entity = some n → n ∈ ns)
    (h' : ∀ e ∈ p'.entries, ∀ n, e.entity = some n → n ∈ ns') :
    ∃ q, p.merge p' = some q ∧ Shaped description layout q ∧ q.entries = p.entries + p'.entries := by
  cases description <;> cases layout <;> first
    | exact absurd hext (by decide)
    | (obtain ⟨x, rfl⟩ := hp; obtain ⟨x', rfl⟩ := hp'; refine ⟨_, rfl, ⟨_, rfl⟩, ?_⟩)
  case addressed.var => exact mapEntries_union (disjoint_of_entities Address.entity (fun _ _ => rfl) hns h h')
  case entity.var => exact mapEntries_union (disjoint_of_entities id (fun _ _ => rfl) hns h h')
  case entityMany.var => exact mapEntries_union (disjoint_of_entities id (fun _ _ => rfl) hns h h')
  case none.var => exact congrArg Multiset.ofList List.map_append
  case none.string => exact congrArg Multiset.ofList List.map_append

theorem within_append {os os' : List (Operand format description layout)} {p p' q : QueryProduct}
    (hq : q.entries = p.entries + p'.entries)
    (h : ∀ e ∈ p.entries, ∀ n, e.entity = some n → n ∈ os.flatMap entities)
    (h' : ∀ e ∈ p'.entries, ∀ n, e.entity = some n → n ∈ os'.flatMap entities) :
    ∀ e ∈ q.entries, ∀ n, e.entity = some n → n ∈ (os ++ os').flatMap entities := by
  intro e he n hn
  rw [hq, Multiset.mem_add] at he
  rw [List.flatMap_append]
  rcases he with he | he
  · exact List.mem_append_left _ (h e he n hn)
  · exact List.mem_append_right _ (h' e he n hn)

/-- the empty product is neutral on the left -/
theorem stands_of_empty_left {os os' : List (Operand format description layout)} {y : QueryProduct}
    (hx : Stands os .empty) (hy : Stands os' y) : Stands (os ++ os') y := by
  have hsum : y.entries = QueryProduct.empty.entries + y.entries := (zero_add _).symm
  refine ⟨⟨?_, ?_⟩, hy.shaped, fun hext => within_append hsum (hx.within hext) (hy.within hext)⟩
  · calc y.entries
        = QueryProduct.empty.entries + y.entries := hsum
      _ = ((os.map product).map QueryProduct.entries).sum + ((os'.map product).map QueryProduct.entries).sum := by
          rw [hx.collects.entries, hy.collects.entries]
      _ = (((os ++ os').map product).map QueryProduct.entries).sum := by
          rw [List.map_append, List.map_append, List.sum_append]
  · rw [List.map_append, List.forall_mem_append, ← hx.collects.empty, ← hy.collects.empty]
    exact (and_iff_right rfl).symm

/-- where two groups are joined, their products are merged into what both stand for -/
theorem merge_defined {l r : Grouping (Operand format description layout)} {x y : QueryProduct}
    (hapart : ∀ o ∈ l.leaves, ∀ o' ∈ r.leaves, Apart o o') (hx : Stands l.leaves x) (hy : Stands r.leaves y)
    (h : Joins l r) : ∃ z, x.merge y = some z ∧ Stands (l.leaves ++ r.leaves) z := by
  by_cases hl : x = .empty
  · subst hl
    exact ⟨y, rfl, stands_of_empty_left hx hy⟩
  · obtain ⟨hext, hr⟩ : Extends description layout = true ∧ ¬ AllEmpty r :=
      h.resolve_left fun hall => hl (hx.empty_iff.mpr hall)
    have hy' : y ≠ .empty := fun he => hr (hy.empty_iff.mp he)
    have hns : ∀ n ∈ l.leaves.flatMap entities, n ∉ r.leaves.flatMap entities := by
      intro n hn hn'
      obtain ⟨o, ho, hno⟩ := List.mem_flatMap.mp hn
      obtain ⟨o', ho', hno'⟩ := List.mem_flatMap.mp hn'
      exact hapart o ho o' ho' n hno hno'
    obtain ⟨z, hz, hshaped, hentries⟩ :=
      merge_shaped hext (hx.shaped hl) (hy.shaped hy') hns (hx.within hext) (hy.within hext)
    refine ⟨z, hz, ⟨⟨?_, ?_⟩, fun _ => hshaped, fun hext => within_append hentries (hx.within hext) (hy.within hext)⟩⟩
    · rw [hentries, hx.collects.entries, hy.collects.entries, List.map_append, List.map_append, List.sum_append]
    · rw [List.map_append, List.forall_mem_append, ← hx.collects.empty, ← hy.collects.empty]
      constructor
      · intro hzero
        exact absurd hzero hshaped.ne_empty
      · intro hboth
        exact absurd hboth.1 hl

theorem merge_empty_right {p : QueryProduct} (h : Shaped description layout p) : p.merge .empty = none := by
  cases description <;> cases layout <;> first
    | exact h.elim
    | (obtain ⟨_, rfl⟩ := h; rfl)

theorem merge_not_extends {p p' : QueryProduct} (hext : ¬ Extends description layout = true)
    (h : Shaped description layout p) : p.merge p' = none := by
  cases description <;> cases layout <;> first
    | exact absurd rfl hext
    | exact h.elim
    | (obtain ⟨_, rfl⟩ := h; cases p' <;> rfl)

/-- where two groups are not joined, merging their products panics -/
theorem merge_failed {l r : Grouping (Operand format description layout)} {x y : QueryProduct}
    (hx : Stands l.leaves x) (hy : Stands r.leaves y) (h : ¬ Joins l r) : x.merge y = none := by
  have hl : x ≠ .empty := fun he => h (.inl (hx.empty_iff.mp he))
  by_cases hext : Extends description layout = true
  · have hr : AllEmpty r := by
      by_contra hr
      exact h (.inr ⟨hext, hr⟩)
    obtain rfl : y = .empty := hy.empty_iff.mpr hr
    exact merge_empty_right (hx.shaped hl)
  · exact merge_not_extends hext (hx.shaped hl)

/-! ## Every order and grouping -/

theorem stands : Grouping.Stands QueryProduct.merge product (@Apart format description layout) Joins
    Stands where
  leaf := stands_leaf
  defined _ _ _ _ := merge_defined
  failed _ _ _ _ := merge_failed

theorem grouping_merges_iff {t : Grouping (Operand format description layout)} (h : t.leaves.Pairwise Apart) :
    Merges t ↔ t.Each Joins := by
  rw [← Grouping.eval_iff stands h]
  constructor
  · intro ⟨r, hr, _⟩
    exact ⟨r, hr, (stands.of_eval h hr).2⟩
  · intro ⟨r, hr, hstands⟩
    exact ⟨r, hr, hstands.collects⟩

theorem Apart.symm {o o' : Operand format description layout} (h : Apart o o') : Apart o' o :=
  fun n hn' hn => h n hn hn'

theorem each_joins_of_empty {t : Grouping (Operand format description layout)} (h : AllEmpty t) : t.Each Joins := by
  induction t with
  | leaf o => trivial
  | node l r ihl ihr =>
    have hl : AllEmpty l := fun o ho => h o (List.mem_append_left _ ho)
    have hr : AllEmpty r := fun o ho => h o (List.mem_append_right _ ho)
    exact ⟨ihl hl, ihr hr, .inl hl⟩

theorem each_joins_of_extends (hext : Extends description layout = true)
    {t : Grouping (Operand format description layout)} (h : ∀ o ∈ t.leaves, o ≠ none) : t.Each Joins := by
  induction t with
  | leaf o => trivial
  | node l r ihl ihr =>
    refine ⟨ihl fun o ho => h o (List.mem_append_left _ ho), ihr fun o ho => h o (List.mem_append_right _ ho),
      .inr ⟨hext, fun hall => ?_⟩⟩
    obtain ⟨o, ho⟩ := List.exists_mem_of_ne_nil _ r.leaves_ne_nil
    exact h o (List.mem_append_right _ ho) (hall o ho)

/-- any two operands of a list can be merged first -/
theorem exists_grouping {x y : Operand format description layout} {os : List (Operand format description layout)}
    {rest : List (Operand format description layout)} (hos : os.Perm (x :: rest)) (hy : y ∈ rest) :
    ∃ t : Grouping (Operand format description layout), t.leaves.Perm os ∧ (t.Each Joins → Joins (.leaf x) (.leaf y)) := by
  obtain ⟨s, s', rfl⟩ := List.append_of_mem hy
  refine ⟨(Grouping.node (.leaf x) (.leaf y)).extended (s ++ s'), ?_, fun h => (Grouping.each_of_extended h).2.2⟩
  rw [Grouping.leaves_extended]
  calc [x, y] ++ (s ++ s')
      = x :: y :: (s ++ s') := rfl
    List.Perm _ (x :: (s ++ y :: s')) := List.perm_middle.symm.cons x
    List.Perm _ os := hos.symm

/-- one operand, or only empty ones, or none of them empty and a shape that is joined -/
def Free (os : List (Operand format description layout)) : Prop :=
  os.length ≤ 1 ∨ (∀ o ∈ os, o = none) ∨ Extends description layout = true ∧ ∀ o ∈ os, o ≠ none

theorem list_merges_iff {os : List (Operand format description layout)} (h : os.Pairwise Apart) :
    (∀ t : Grouping (Operand format description layout), t.leaves.Perm os → Merges t) ↔ Free os := by
  have hpairwise : ∀ t : Grouping (Operand format description layout), t.leaves.Perm os → t.leaves.Pairwise Apart :=
    fun t ht => (ht.pairwise_iff fun h => h.symm).mpr h
  constructor
  · intro hall
    by_contra hfree
    simp only [Free, not_or, not_le, not_and] at hfree
    obtain ⟨hlen, hsome, hext⟩ := hfree
    push Not at hsome
    obtain ⟨x, hx, hxne⟩ := hsome
    obtain ⟨s, s', rfl⟩ := List.append_of_mem hx
    have hperm : (s ++ x :: s').Perm (x :: (s ++ s')) := List.perm_middle
    -- an operand that is not joined to this one on the left
    obtain ⟨y, hy, hbad⟩ : ∃ y ∈ s ++ s', ¬ (Extends description layout = true ∧ y ≠ none) := by
      by_cases he : Extends description layout = true
      · have hnone := hext he
        push Not at hnone
        obtain ⟨y, hy, hynone⟩ := hnone
        refine ⟨y, ?_, fun hno => hno.2 hynone⟩
        rcases List.mem_cons.mp (hperm.mem_iff.mp hy) with rfl | hy
        · exact absurd hynone hxne
        · exact hy
      · have hne : s ++ s' ≠ [] := by
          intro hnil
          rw [hperm.length_eq, hnil] at hlen
          exact absurd hlen (by simp)
        obtain ⟨y, hy⟩ := List.exists_mem_of_ne_nil _ hne
        exact ⟨y, hy, fun hno => he hno.1⟩
    obtain ⟨t, ht, hjoins⟩ := exists_grouping hperm hy
    rcases hjoins ((grouping_merges_iff (hpairwise t ht)).mp (hall t ht)) with hempty | ⟨he, hyempty⟩
    · exact hxne (hempty x (List.mem_singleton_self x))
    · refine hbad ⟨he, fun hnone => hyempty fun o ho => ?_⟩
      rw [List.mem_singleton.mp ho]
      exact hnone
  · intro hfree t ht
    apply (grouping_merges_iff (hpairwise t ht)).mpr
    rcases hfree with hlen | hempty | ⟨hext, hne⟩
    · cases t with
      | leaf o => trivial
      | node l r =>
        have htwo := Grouping.two_le_leaves l r
        rw [ht.length_eq] at htwo
        omega
    · exact each_joins_of_empty fun o ho => hempty o (ht.mem_iff.mp ho)
    · exact each_joins_of_extends hext fun o ho => hne o (ht.mem_iff.mp ho)

/-- when merging gives the union of its operands -/
structure MergeLaw (format : Var → String) (description : Description) (layout : Layout) : Prop where
  /-- in one grouping -/
  grouping : ∀ t : Grouping (Operand format description layout), t.leaves.Pairwise Apart → (Merges t ↔ t.Each Joins)
  /-- in every order and grouping of a list -/
  list : ∀ os : List (Operand format description layout), os.Pairwise Apart →
    ((∀ t : Grouping (Operand format description layout), t.leaves.Perm os → Merges t) ↔ Free os)
  emptyLeft : ∀ o : Operand format description layout, QueryProduct.empty.merge (product o) = some (product o)
  emptyRight : ∀ o : Operand format description layout, (product o).merge .empty = some (product o) ↔ o = none

/-- **Merging.** The products of one query are merged into their union exactly where each left side is all empty, or the
shape is joined and the right side is not all empty. -/
theorem merge_iff (format : Var → String) (description : Description) (layout : Layout) :
    MergeLaw format description layout where
  grouping _ h := grouping_merges_iff h
  list _ h := list_merges_iff h
  emptyLeft _ := rfl
  emptyRight o := by
    cases o with
    | none => exact ⟨fun _ => rfl, fun _ => rfl⟩
    | some r =>
      have hfail : r.product.merge .empty = none := merge_empty_right (productOf_shaped r.returned)
      constructor
      · intro h
        exact absurd (hfail.symm.trans h) (by simp)
      · intro h
        exact absurd h (by simp)

/-- one value of one entity -/
def oneValue : Returned (fun _ => "") .none .var := ⟨[(("e", "c", "x"), .int 1)], .var [.int 1], rfl⟩

/-- one value of the named entity, described natively -/
def oneNative (name : EntityName) : Returned (fun _ => "") .nativeDescribed .var :=
  ⟨[((name, "c", "x"), .int 1)], .nativeAddressedVar (Finmap.insert (name, "c", "x") (.int 1) ∅), rfl⟩

/-- the empty product is not neutral on the right, and two products described natively are not merged -/
theorem merge_fails :
    (product (some oneValue)).merge .empty = none ∧
      ¬ Merges (.node (.leaf (some oneValue)) (.leaf none)) ∧
      Apart (some (oneNative "a")) (some (oneNative "b")) ∧
      ¬ Merges (.node (.leaf (some (oneNative "a"))) (.leaf (some (oneNative "b")))) := by
  refine ⟨rfl, ?_, ?_, ?_⟩
  · intro ⟨r, hr, _⟩
    cases hr
  · intro n hn hn'
    rw [List.mem_singleton.mp hn] at hn'
    exact absurd (List.mem_singleton.mp hn') (by decide)
  · intro ⟨r, hr, _⟩
    cases hr

end BigWorlds.Merging
