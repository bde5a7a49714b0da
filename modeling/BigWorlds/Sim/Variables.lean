/-
Reading and writing one variable through the handle of a simulation (`sim.rs`, `SimHandle::get_var` and `set_var`;
`query.rs`, `QueryProduct::to_var`).

Reading asks the cluster: a query with the name of the entity for a filter and the address for a mapping goes to every
worker that the links lead to, and of the values that come back the last one is taken, which is the own one of the
worker asked if it has one. Writing asks that worker only.

- `Follows`: what a query merges does not depend on the shape of its products, so the chains of forwardings are those
  of the addressed queries;
- `get_var_answers`: which values are read;
- `set_var_read_back`: a variable that was written is read back where the worker asked has the entity in memory.
  Elsewhere the write is a success that writes nothing.
-/
import BigWorlds.Query.Archived
import BigWorlds.Query.Global
import BigWorlds.Query.Shapes
import BigWorlds.Worker.Variables

namespace BigWorlds.Sim

open BigWorlds.Core (Exec Fate)
open GlobalQuery (Oracle Collected Outcome Chain andThen viaExec arrive mergeEach)

/-! ## Model -/

/-- the query of `get_var`: all defaults, but for the filter and the mapping -/
def varQuery (a : Address) : Query where
  description := .none
  layout := .var
  filters := [.name [a.entity]]
  mappings := [.selectAddrs [a]]
  archive := .ignore
  limits := ⟨none⟩

/-- what the environment decides about one query: how it travels, and how it is evaluated where it arrives -/
structure QueryEnv where
  oracle : Oracle
  format : Var → String
  now : WorkerId → UInt32
  order : ∀ part : Partition, part.Order
  iterate : MappedOrder
  /-- the error that is answered where the evaluation fails -/
  report : QueryFailure → Error

/-- the arm of `ProcessQuery` in the manager of a worker -/
def answerAt (env : QueryEnv) (c : Cluster) (q : Query) (w : WorkerId) : Except Error QueryProduct :=
  match (c.stateOf w).bind (·.part) with
  | some part => (processQuery env.format (env.now w) env.iterate part (env.order part) q).2.mapError env.report
  | none => .error (.workerNotInitialized "node not available, was simulation model loaded onto the cluster?")

/-- how a read fails: the query does, no value came back, or the product is none of values -/
inductive Failure where
  | of (e : Error)
  | failedConversion (text : String)
  | panic
deriving DecidableEq, Repr

/-- `QueryProduct::to_var` -/
def toVar : QueryProduct → Except Failure Var
  | .var vec =>
    match vec.getLast? with
    | some v => .ok v
    | none => .error (.failedConversion "Can't make query product into a single var, no vars available")
  | _ => .error .panic

def readAnswer : Except Error Collected → Except Failure Var
  | .ok r => toVar r.product
  | .error e => .error (.of e)

/-- `SimHandle::get_var` by way of worker `e`; no answer yet within `n` nested queries is `none` -/
def getVar (env : QueryEnv) (c : Cluster) (e : WorkerId) (ctx : Context) (n : ℕ) (a : Address) :
    Option (Except Failure Var) :=
  (GlobalQuery.processQuery (answerAt env c (varQuery a)) env.oracle c n [] e ctx).map readAnswer

/-- `SimHandle::set_var` by way of worker `e` -/
def setVar (fate : Fate Error) (now : UInt64) (ctx : Context) (e : WorkerId) (a : Address) (v : Var) (c : Cluster) :
    Cluster × Except Error Unit :=
  c.execute .local fate now ctx e (WorkerState.setVars [(a, v)])

/-- the value of the variable in the memory of worker `w` -/
def liveVar (c : Cluster) (w : WorkerId) (a : Address) : Option Var :=
  (c.stateOf w).bind (·.liveVar a.entity a.toLocal.asStorageIndex)

/-- the query that worker `e` gets is forwarded to worker `u`, or that is the same one -/
def Reached (c : Cluster) (e : WorkerId) (ctx : Context) (u : WorkerId) : Prop :=
  ∃ l, Chain c e ctx.workerObservers ctx.wentThroughLeader l u

/-! ## One worker -/

theorem varQuery_takes {format : Var → String} {store : FnvHashMap EntityName Entity} {a : Address}
    {k : NativeAddress} {v : Var} :
    (varQuery a).Takes format store k ∧ valueOf store k = some v ↔
      k = (a.entity, a.toLocal.asStorageIndex) ∧
        (store.lookup a.entity).bind (·.storage.map.lookup a.toLocal.asStorageIndex) = some v := by
  have hsince : sinceComponent (varQuery a).filters = (varQuery a).filters := sinceComponent_eq rfl
  have htakes : takesAny (varQuery a).mappings k.2 = true ↔ a.toLocal.asStorageIndex = k.2 := by
    simp only [varQuery, takesAny, Mapping.takes, List.any_cons, List.any_nil, Bool.or_false]
    exact decide_eq_true_iff
  rw [Query.Takes, hsince, htakes]
  constructor
  · rintro ⟨⟨⟨e, -, hpass⟩, hidx⟩, hv⟩
    have hname : k.1 = a.entity := by
      simpa [varQuery, Filter.passes] using hpass (.name [a.entity]) List.mem_cons_self
    rw [valueOf, hname, ← hidx] at hv
    exact ⟨Prod.ext hname hidx.symm, hv⟩
  · rintro ⟨rfl, hv⟩
    obtain ⟨e, he, -⟩ := Option.bind_eq_some_iff.mp hv
    refine ⟨⟨⟨e, he, fun f hf => ?_⟩, rfl⟩, hv⟩
    obtain rfl := List.mem_singleton.mp hf
    simp [Filter.passes]

/-- the values of a map with one entry, or none -/
theorem data_eq (it : MappedOrder) {mapped : MappedMap} {k : NativeAddress} {o : Option Var}
    (h : ∀ k' v, mapped.lookup k' = some v ↔ k' = k ∧ o = some v) : (it.data mapped).map Prod.snd = o.toList := by
  have hmem : ∀ s, s ∈ (it.entries mapped).entries ↔ s.1 = k ∧ o = some s.2 := by
    intro s
    rw [← h s.1 s.2, ← it.complete mapped, Finmap.lookup_toFinmap, it.complete mapped]
    exact AList.mem_lookup_iff.symm
  rw [MappedOrder.data, List.map_map]
  cases o with
  | none =>
    have hnil : (it.entries mapped).entries = [] :=
      List.eq_nil_iff_forall_not_mem.mpr fun s hs => by simpa using (hmem s).mp hs
    rw [hnil]
    rfl
  | some v =>
    have hone : (it.entries mapped).entries.Perm [⟨k, v⟩] := by
      refine (List.perm_ext_iff_of_nodup (it.entries mapped).nodupKeys.nodup (List.nodup_singleton _)).mpr fun s => ?_
      rw [hmem s, List.mem_singleton, Option.some.injEq]
      constructor
      · rintro ⟨rfl, rfl⟩
        rfl
      · rintro rfl
        exact ⟨rfl, rfl⟩
    rw [List.perm_singleton.mp hone]
    rfl

theorem varQuery_product (format : Var → String) (it : MappedOrder) (a : Address) (mapped : MappedMap) :
    (varQuery a).product format it mapped = .ok (.var ((it.data mapped).map Prod.snd)) := rfl

/-- **What a worker answers** is the value that it has in memory, or nothing -/
theorem answerAt_eq (env : QueryEnv) {c : Cluster} (a : Address) {w : WorkerId} {part : Partition}
    (h : (c.stateOf w).bind (·.part) = some part) :
    answerAt env c (varQuery a) w = .ok (.var (liveVar c w a).toList) := by
  obtain ⟨st, hst, hp⟩ := Option.bind_eq_some_iff.mp h
  have himpl : (varQuery a).Implemented part.entities := by
    refine ⟨fun f hf => ?_, fun m hm => ?_⟩
    · obtain rfl := List.mem_singleton.mp hf
      exact ⟨rfl, trivial⟩
    · obtain rfl := List.mem_singleton.mp hm
      rfl
  obtain ⟨part', mapped, hmap, -, hlookup⟩ := @mapQuery_plain env.format (env.now w) part (env.order part)
    (varQuery a) himpl rfl (by simp [varQuery])
  have hlive : liveVar c w a = (part.entities.lookup a.entity).bind
      (·.storage.map.lookup a.toLocal.asStorageIndex) := by
    simp only [liveVar, hst, Option.bind_some, WorkerState.liveVar, WorkerState.inMemory, hp]
  simp only [answerAt, h, processQuery, hmap, varQuery_product, Except.mapError]
  rw [data_eq env.iterate fun k v => (hlookup k v).trans varQuery_takes, hlive]

theorem answerAt_ok {env : QueryEnv} {c : Cluster} {a : Address} {w : WorkerId} {p : QueryProduct}
    (h : answerAt env c (varQuery a) w = .ok p) : p = .var (liveVar c w a).toList := by
  cases hpart : (c.stateOf w).bind (·.part) with
  | none =>
    rw [answerAt, hpart] at h
    cases h
  | some part =>
    rw [answerAt_eq env a hpart] at h
    exact (Except.ok.inj h).symm

/-! ## What a query merges -/

variable {vals : WorkerId → List Var}

/-- the values that were merged, beside the same answers merged as addressed products -/
def Carries (vals : WorkerId → List Var) (x x' : Collected) : Prop :=
  x'.merged = x.merged ∧
    ((x.merged = [] ∧ x.product = .empty ∧ x'.product = .empty) ∨
      (x.product = .var (x.merged.flatMap fun m => vals m.2) ∧ ∃ map, x'.product = .addressedVar map))

/-- what succeeds with values succeeds with addressed products too -/
def Follows (vals : WorkerId → List Var) (r r' : Outcome) : Prop :=
  ∀ x, r = some (.ok x) → ∃ x', r' = some (.ok x') ∧ Carries vals x x'

theorem carries_none : Carries vals .none_ .none_ := ⟨rfl, .inl ⟨rfl, rfl, rfl⟩⟩

theorem Follows.ok {x x' : Collected} (h : Carries vals x x') : Follows vals (some (.ok x)) (some (.ok x')) := by
  intro y hy
  obtain rfl := Except.ok.inj (Option.some.inj hy)
  exact ⟨x', rfl, h⟩

theorem Follows.error (e : Error) (r' : Outcome) : Follows vals (some (.error e)) r' := fun _ h => by cases h

theorem Follows.andThen {r r' : Outcome} {f f' : Collected → Outcome} (h : Follows vals r r')
    (hf : ∀ x x', Carries vals x x' → Follows vals (f x) (f' x')) :
    Follows vals (GlobalQuery.andThen r f) (GlobalQuery.andThen r' f') := by
  intro y hy
  obtain ⟨x, rfl, hy⟩ := GlobalQuery.andThen_ok hy
  obtain ⟨x', rfl, hx⟩ := h x rfl
  exact hf x x' hx y hy

theorem Follows.viaExec {r r' : Outcome} (h : Follows vals r r') (exec : Exec) :
    Follows vals (GlobalQuery.viaExec exec r) (GlobalQuery.viaExec exec r') := by
  intro x hx
  obtain ⟨x', hx', hcarries⟩ := h x (GlobalQuery.viaExec_ok.mp hx)
  exact ⟨x', GlobalQuery.viaExec_ok.mpr hx', hcarries⟩

theorem Carries.merge {a a' x x' : Collected} (ha : Carries vals a a') (hx : Carries vals x x') :
    Follows vals (a.merge x) (a'.merge x') := by
  intro y hy
  obtain ⟨hproduct, hmerged⟩ := GlobalQuery.merge_ok hy
  obtain ⟨ham, ⟨hanil, hap, hap'⟩ | ⟨hap, map, hap'⟩⟩ := ha
  · -- nothing was merged before
    rw [hap] at hproduct
    rw [hanil, List.nil_append] at hmerged
    have hmerge : a'.merge x' = some (.ok ⟨x'.product, a'.merged ++ x'.merged⟩) := by
      simp only [Collected.merge, hap', QueryProduct.merge]
    refine ⟨_, hmerge, by rw [ham, hanil, List.nil_append, hx.1, hmerged], ?_⟩
    rw [hmerged, ← Option.some.inj hproduct]
    exact hx.2
  · obtain ⟨hxm, ⟨-, hxp, -⟩ | ⟨hxp, map', hxp'⟩⟩ := hx
    · -- values and an empty product do not merge
      rw [hap, hxp] at hproduct
      cases hproduct
    · rw [hap, hxp] at hproduct
      have hmerge : a'.merge x' = some (.ok ⟨.addressedVar (map' ∪ map), a'.merged ++ x'.merged⟩) := by
        simp only [Collected.merge, hap', hxp', QueryProduct.merge]
      refine ⟨_, hmerge, by rw [ham, hxm, hmerged], .inr ⟨?_, _, rfl⟩⟩
      rw [hmerged, List.flatMap_append]
      exact (Option.some.inj hproduct).symm

theorem follows_mergeEach {call call' : WorkerId → Outcome} (h : ∀ p, Follows vals (call p) (call' p))
    (ps : List WorkerId) {acc acc' : Collected} (hacc : Carries vals acc acc') :
    Follows vals (mergeEach call ps acc) (mergeEach call' ps acc') := by
  induction ps generalizing acc acc' with
  | nil => exact .ok hacc
  | cons p ps ih => exact (h p).andThen fun x x' hx => (hacc.merge hx).andThen fun y y' hy => ih hy

section
variable {o : Oracle} {c : Cluster} {handler handler' : List WorkerId → WorkerId → Context → Outcome}

theorem follows_arrive (hh : ∀ tr w ctx, Follows vals (handler tr w ctx) (handler' tr w ctx)) (tr : List WorkerId)
    (p : WorkerId) (exec : Exec) (ctx : Context) :
    Follows vals (arrive o tr p exec ctx handler) (arrive o tr p exec ctx handler') := by
  unfold arrive
  split
  · refine (hh _ _ _).andThen fun x x' hx => .ok ⟨?_, ?_⟩
    · exact congrArg (List.map fun m => (p :: m.1, m.2)) hx.1
    · rw [List.flatMap_map]
      refine hx.2.imp ?_ id
      rintro ⟨hnil, h⟩
      exact ⟨by rw [hnil]; rfl, h⟩
  · exact .error _ _
  · exact .error _ _

theorem follows_askLeader (hh : ∀ tr w ctx, Follows vals (handler tr w ctx) (handler' tr w ctx)) (tr : List WorkerId)
    (w : WorkerId) (st : WorkerState) (ctx : Context) :
    Follows vals (GlobalQuery.askLeader o c tr w st ctx handler) (GlobalQuery.askLeader o c tr w st ctx handler') := by
  unfold GlobalQuery.askLeader
  split_ifs
  · split
    · refine Follows.andThen (Follows.viaExec ?_ _) fun x x' hx => carries_none.merge hx
      refine follows_mergeEach (fun r => ?_) _ carries_none
      split
      · exact (follows_arrive hh _ _ _ _).viaExec _
      · exact .error _ _
    · exact .ok carries_none
  · exact .ok carries_none

theorem follows_askPeers (hh : ∀ tr w ctx, Follows vals (handler tr w ctx) (handler' tr w ctx)) (tr : List WorkerId)
    (st : WorkerState) (ctx : Context) {acc acc' : Collected} (hacc : Carries vals acc acc') :
    Follows vals (GlobalQuery.askPeers o tr st ctx handler acc) (GlobalQuery.askPeers o tr st ctx handler' acc') := by
  refine follows_mergeEach (fun p => ?_) _ hacc
  split
  · exact (follows_arrive hh _ _ _ _).viaExec _
  · exact .error _ _

end

/-- **What a query merges does not depend on the shape.** Where workers answer with values, the same answers are merged
as where each has an addressed product without an entry. -/
theorem processQuery_follows {answer : WorkerId → Except Error QueryProduct}
    (h : ∀ w p, answer w = .ok p → p = .var (vals w)) (o : Oracle) (c : Cluster) (n : ℕ) (tr : List WorkerId)
    (w : WorkerId) (ctx : Context) :
    Follows vals (GlobalQuery.processQuery answer o c n tr w ctx)
      (GlobalQuery.processQuery (fun _ => .ok (.addressedVar ∅)) o c n tr w ctx) := by
  induction n generalizing tr w ctx with
  | zero => exact fun _ h => by cases h
  | succ n ih =>
    unfold GlobalQuery.processQuery
    split
    · exact .error _ _
    · refine (follows_askLeader ih tr w _ ctx).andThen fun a a' ha => ?_
      refine (follows_askPeers ih tr _ ctx ha).andThen fun b b' hb => ?_
      split
      · rename_i product hproduct
        refine hb.merge ⟨rfl, .inr ⟨?_, ∅, rfl⟩⟩
        rw [h w product hproduct]
        simp
      · exact .error _ _

/-! ## Reading -/

/-- the worker asked merges its own product last -/
theorem merged_last {answer : WorkerId → Except Error QueryProduct} {o : Oracle} {c : Cluster} {n : ℕ}
    {tr : List WorkerId} {w : WorkerId} {ctx : Context} {r : Collected}
    (h : GlobalQuery.processQuery answer o c n tr w ctx = some (.ok r)) :
    ∃ others, r.merged = others ++ [([], w)] := by
  cases n with
  | zero => cases h
  | succ n =>
    unfold GlobalQuery.processQuery at h
    split at h
    · cases h
    · obtain ⟨a, -, h⟩ := GlobalQuery.andThen_ok h
      obtain ⟨b, -, h⟩ := GlobalQuery.andThen_ok h
      split at h
      · exact ⟨b.merged, (GlobalQuery.merge_ok h).2⟩
      · cases h

/-- the values that come back: those of all workers that the query reaches, the own one of the worker asked last -/
theorem answer_values {env : QueryEnv} {c : Cluster} {e : WorkerId} {ctx : Context} {n : ℕ} {a : Address}
    {r : Collected}
    (h : GlobalQuery.processQuery (answerAt env c (varQuery a)) env.oracle c n [] e ctx = some (.ok r)) :
    ∃ others : List WorkerId,
      r.product = .var (others.flatMap (fun u => (liveVar c u a).toList) ++ (liveVar c e a).toList) ∧
      (∀ u ∈ others, Reached c e ctx u) ∧ ∀ u, Reached c e ctx u → u ∈ others ∨ u = e := by
  obtain ⟨others, hlast⟩ := merged_last h
  have hanswers : ∀ u p, answerAt env c (varQuery a) u = .ok p → p = .var (liveVar c u a).toList :=
    fun _ _ => answerAt_ok
  obtain ⟨r', hr', hmerged, hproduct⟩ := processQuery_follows hanswers env.oracle c n [] e ctx r h
  have hchains := (GlobalQuery.processQuery_ok (fun v _ => ⟨_, .var, rfl, ∅, rfl⟩) n hr').chains
  rw [hmerged, hlast] at hchains
  refine ⟨others.map Prod.snd, ?_, fun u hu => ?_, fun u hu => ?_⟩
  · rcases hproduct with ⟨hnil, -⟩ | ⟨hproduct, -⟩
    · simp [hlast] at hnil
    · rw [hproduct, hlast, List.flatMap_append, List.flatMap_map]
      simp
  · obtain ⟨m, hm, rfl⟩ := List.mem_map.mp hu
    exact ⟨m.1, (hchains m.1 m.2).mp (List.mem_append_left _ hm)⟩
  · obtain ⟨l, hl⟩ := hu
    rcases List.mem_append.mp ((hchains l u).mpr hl) with hm | hm
    · exact .inl (List.mem_map.mpr ⟨(l, u), hm, rfl⟩)
    · exact .inr (Prod.mk.inj (List.mem_singleton.mp hm)).2

/-- what reading comes to, in terms of what is in memory at the workers that the query reaches -/
def Reads (c : Cluster) (e : WorkerId) (ctx : Context) (a : Address) (res : Except Failure Var) : Prop :=
  (∃ v, res = .ok v ∧ (liveVar c e a = some v ∨
      (liveVar c e a = none ∧ ∃ u, u ≠ e ∧ Reached c e ctx u ∧ liveVar c u a = some v))) ∨
    (res = .error (.failedConversion "Can't make query product into a single var, no vars available") ∧
      ∀ u, Reached c e ctx u → liveVar c u a = none)

theorem getVar_reads {env : QueryEnv} {c : Cluster} {e : WorkerId} {ctx : Context} {n : ℕ} {a : Address}
    {res : Except Failure Var} (h : getVar env c e ctx n a = some res) (hanswered : ∀ err, res ≠ .error (.of err)) :
    Reads c e ctx a res := by
  obtain ⟨ans, hans, rfl⟩ := Option.map_eq_some_iff.mp h
  cases ans with
  | error err => exact absurd rfl (hanswered err)
  | ok r =>
    obtain ⟨others, hproduct, hreached, hall⟩ := answer_values hans
    simp only [readAnswer, hproduct, toVar]
    cases hown : liveVar c e a with
    | some v => exact .inl ⟨v, by simp, .inl hown⟩
    | none =>
      simp only [Option.toList_none, List.append_nil]
      cases hlast : (others.flatMap fun u => (liveVar c u a).toList).getLast? with
      | some v =>
        obtain ⟨u, hu, hv⟩ := List.mem_flatMap.mp (List.mem_of_getLast? hlast)
        have hvu : liveVar c u a = some v := by simpa using hv
        refine .inl ⟨v, rfl, .inr ⟨hown, u, ?_, hreached u hu, hvu⟩⟩
        rintro rfl
        rw [hown] at hvu
        cases hvu
      | none =>
        have hnil := List.flatMap_eq_nil_iff.mp (List.getLast?_eq_none_iff.mp hlast)
        refine .inr ⟨rfl, fun u hu => ?_⟩
        rcases hall u hu with hu | rfl
        · simpa using hnil u hu
        · exact hown

/-- **Which value is read.** Where the query is answered, `get_var` succeeds exactly if a worker that the query reaches
has the variable in memory, with the value there, and with the own value of the worker asked if that has one. Archived
copies are not read, and the type in the address is not looked at. -/
theorem get_var_answers (env : QueryEnv) (c : Cluster) (e : WorkerId) (ctx : Context) (n : ℕ) (a : Address)
    {res : Except Failure Var} (h : getVar env c e ctx n a = some res) (hanswered : ∀ err, res ≠ .error (.of err)) :
    ((∃ v, res = .ok v) ↔ ∃ u, Reached c e ctx u ∧ (liveVar c u a).isSome = true) ∧
      ∀ v, res = .ok v → ∃ u, Reached c e ctx u ∧ liveVar c u a = some v ∧ ((liveVar c e a).isSome = true → u = e) := by
  have hself : Reached c e ctx e := ⟨[], .here e _ _⟩
  rcases getVar_reads h hanswered with ⟨v, rfl, hown | ⟨hown, u, -, hu, hv⟩⟩ | ⟨rfl, hnone⟩
  · refine ⟨iff_of_true ⟨v, rfl⟩ ⟨e, hself, by rw [hown]; rfl⟩, fun v' hv' => ⟨e, hself, ?_, fun _ => rfl⟩⟩
    rw [hown, Except.ok.inj hv']
  · refine ⟨iff_of_true ⟨v, rfl⟩ ⟨u, hu, by rw [hv]; rfl⟩, fun v' hv' => ⟨u, hu, ?_, fun hsome => ?_⟩⟩
    · rw [hv, Except.ok.inj hv']
    · rw [hown] at hsome
      cases hsome
  · refine ⟨iff_of_false (fun ⟨_, hv⟩ => by cases hv) ?_, fun _ hv => by cases hv⟩
    rintro ⟨u, hu, hsome⟩
    rw [hnone u hu] at hsome
    cases hsome

/-- a worker of the leader, without peers, that has these entities in memory -/
def workerWith (entities : FnvHashMap EntityName Entity) : WorkerState :=
  { config := .default, model := some ⟨[], [], [], []⟩, disk := ∅, leader := .connected .local, otherWorkers := ∅,
    part := some ⟨entities, none, ∅, [], .default⟩ }

/-- a ball at 3 -/
def ballAt3 : FnvHashMap EntityName Entity :=
  Finmap.singleton "ball" ⟨⟨Finmap.singleton ("position", "x") (.int 3)⟩, ["position"], ⟨none, none⟩⟩

/-- the ball is at worker 1, the query at worker 0 -/
def twoWorkers : Cluster where
  leader := ⟨none, Finmap.insert 0 .local (Finmap.singleton 1 .local)⟩
  workers := Finmap.insert 0 ⟨workerWith ∅, ∅⟩ (Finmap.singleton 1 ⟨workerWith ballAt3, ∅⟩)

def position : Address := ⟨"ball", "position", .int, "x"⟩

/-- any orders will do -/
noncomputable def anyEnv : QueryEnv where
  oracle := GlobalQuery.quiet
  format _ := ""
  now _ := 0
  order part := ⟨part.entities.keys.toList, ((part.archive.map Finmap.keys).getD ∅).toList, by simp, by simp⟩
  iterate := anyOrder
  report _ := .other "query"

theorem position_read {c : Cluster} (hleader : c.leader = twoWorkers.leader) (hs0 : c.stateOf 0 = some (workerWith ∅))
    (hs1 : c.stateOf 1 = some (workerWith ballAt3)) :
    getVar anyEnv c 0 GlobalQuery.asked 2 position = some (.ok (.int 3)) := by
  have h0 : answerAt anyEnv c (varQuery position) 0 = .ok (.var []) := by
    rw [answerAt_eq anyEnv position (by rw [hs0]; rfl), liveVar, hs0]
    rfl
  have h1 : answerAt anyEnv c (varQuery position) 1 = .ok (.var [.int 3]) := by
    rw [answerAt_eq anyEnv position (by rw [hs1]; rfl), liveVar, hs1]
    rfl
  have hreg : c.leader.workers.lookup 1 = some Exec.local := by
    rw [hleader]
    rfl
  -- the leader asks worker 1, which came through the leader and asks nobody
  have hasked : ∀ ctx : Context, ctx.wentThroughLeader = true →
      GlobalQuery.processQuery (answerAt anyEnv c (varQuery position)) GlobalQuery.quiet c 1 [1] 1 ctx =
        some (.ok ⟨.var [.int 3], [([], 1)]⟩) := by
    intro ctx hctx
    simp [GlobalQuery.processQuery, hs1, h1, GlobalQuery.askLeader, hctx, GlobalQuery.askPeers, workerWith,
      GlobalQuery.quiet, GlobalQuery.mergeEach, GlobalQuery.andThen, Collected.none_, Collected.merge,
      QueryProduct.merge]
  have horder : ((c.leader.workers.keys.filter fun r => r ∉ [(0 : WorkerId)]).sort (· ≤ ·)) = [1] := by
    have hone : (c.leader.workers.keys.filter fun r => r ∉ [(0 : WorkerId)]) = {1} := by
      rw [hleader]
      decide
    rw [hone, Finset.sort_singleton]
  have harrive : arrive GlobalQuery.quiet [] 1 .local (GlobalQuery.leaderCtx GlobalQuery.quiet [])
      (GlobalQuery.processQuery (answerAt anyEnv c (varQuery position)) GlobalQuery.quiet c 1) =
        some (.ok ⟨.var [.int 3], [([1], 1)]⟩) := by
    have hreceive : (Inbox.receive 1 0 ∅ .localStreams (GlobalQuery.leaderCtx GlobalQuery.quiet [])).2 =
        .handled ((GlobalQuery.leaderCtx GlobalQuery.quiet []).registerHop 0 (.worker 1)) := rfl
    simp only [arrive, Cluster.streamOf, GlobalQuery.quiet] at hreceive ⊢
    rw [hreceive]
    simp only [List.nil_append]
    have hthere := hasked ((GlobalQuery.leaderCtx GlobalQuery.quiet []).registerHop 0 (.worker 1)) (by decide)
    simp only [GlobalQuery.quiet] at hthere
    rw [hthere]
    rfl
  have hproxy : ∀ ctx : Context, ctx.workerObservers = [0] → GlobalQuery.proxyQuery GlobalQuery.quiet c [] ctx
      (GlobalQuery.processQuery (answerAt anyEnv c (varQuery position)) GlobalQuery.quiet c 1) =
        some (.ok ⟨.var [.int 3], [([1], 1)]⟩) := by
    intro ctx hobs
    have hsorted : GlobalQuery.quiet.order [] (c.leader.workers.keys.filter fun r => r ∉ [(0 : WorkerId)]) =
      [1] := horder
    rw [GlobalQuery.proxyQuery, hobs, hsorted]
    simp only [mergeEach, hreg, harrive]
    rfl
  have hask : GlobalQuery.askLeader GlobalQuery.quiet c [] 0 (workerWith ∅) GlobalQuery.asked
      (GlobalQuery.processQuery (answerAt anyEnv c (varQuery position)) GlobalQuery.quiet c 1) =
        some (.ok ⟨.var [.int 3], [([1], 1)]⟩) := by
    rw [GlobalQuery.askLeader, if_pos ⟨rfl, rfl⟩]
    simp only [workerWith]
    rw [hproxy _ rfl]
    rfl
  have horacle : anyEnv.oracle = GlobalQuery.quiet := rfl
  unfold getVar GlobalQuery.processQuery
  simp only [hs0]
  rw [horacle, hask]
  simp [GlobalQuery.andThen, GlobalQuery.askPeers, workerWith, GlobalQuery.quiet, mergeEach, h0, Collected.merge,
    QueryProduct.merge, readAnswer, toVar]

theorem get_var_answers_position :
    ((∃ v, Except.ok (Var.int 3) = Except.ok (ε := Failure) v) ↔
        ∃ u, Reached twoWorkers 0 GlobalQuery.asked u ∧ (liveVar twoWorkers u position).isSome = true) ∧
      ∀ v, Except.ok (Var.int 3) = Except.ok (ε := Failure) v → ∃ u, Reached twoWorkers 0 GlobalQuery.asked u ∧
        liveVar twoWorkers u position = some v ∧ ((liveVar twoWorkers 0 position).isSome = true → u = 0) :=
  get_var_answers anyEnv twoWorkers 0 GlobalQuery.asked 2 position (position_read rfl rfl rfl) (fun _ h => by cases h)

/-! ## Writing -/

/-- a chain of forwardings depends on the leader and on the states of the workers -/
theorem chain_congr {c c' : Cluster} (hl : c'.leader = c.leader) (hst : ∀ w, c'.stateOf w = c.stateOf w)
    {w v : WorkerId} {obs l : List WorkerId} {through : Bool} (h : Chain c' w obs through l v) :
    Chain c w obs through l v := by
  induction h with
  | here => exact .here _ _ _
  | peer hs hp _ ih => exact .peer ((hst _).symm.trans hs) hp ih
  | leader hs hn hlead hr ho _ ih => exact .leader ((hst _).symm.trans hs) hn hlead (hl ▸ hr) ho ih

theorem Reads.congr {c c' : Cluster} (hl : c'.leader = c.leader) (hst : ∀ w, c'.stateOf w = c.stateOf w)
    {e : WorkerId} {ctx : Context} {a : Address} {res : Except Failure Var} (h : Reads c' e ctx a res) :
    Reads c e ctx a res := by
  have hlive : ∀ u, liveVar c' u a = liveVar c u a := fun u => by simp only [liveVar, hst]
  have hreached : ∀ u, Reached c' e ctx u ↔ Reached c e ctx u := fun u =>
    ⟨fun ⟨l, h⟩ => ⟨l, chain_congr hl hst h⟩, fun ⟨l, h⟩ => ⟨l, chain_congr hl.symm (fun w => (hst w).symm) h⟩⟩
  simpa only [Reads, hlive, hreached] using h

/-- what a write that succeeds has done -/
theorem setVar_ok {fate : Fate Error} {now : UInt64} {ctx : Context} {c c' : Cluster} {e : WorkerId} {a : Address}
    {v : Var} (h : setVar fate now ctx e a v c = (c', .ok ())) :
    ∃ st, c.stateOf e = some st ∧ c'.stateOf e = some (WorkerState.setVar a v st).1 ∧
      (WorkerState.setVar a v st).2 = .ok () ∧ c'.leader = c.leader ∧ ∀ u, u ≠ e → c'.stateOf u = c.stateOf u := by
  obtain ⟨hl, -, ⟨-, err, herr⟩ | ⟨-, hran, st, hst, hans⟩⟩ :=
    Cluster.execute_spec .local fate now ctx e (WorkerState.setVars [(a, v)]) c
  · simp only [setVar] at h
    rw [h] at herr
    cases herr
  · simp only [setVar] at h
    rw [h] at hl hran hans
    obtain ⟨st', hst', hnew⟩ := hran.here
    obtain rfl := Option.some.inj (hst.symm.trans hst')
    have hok : (WorkerState.setVars [(a, v)] st).2 = .ok () := by
      rcases hans with ⟨u, -, hu⟩ | ⟨err, herr, -⟩
      · exact hu
      · cases herr
    have hone : WorkerState.setVars [(a, v)] st = WorkerState.setVar a v st := by
      simp only [WorkerState.setVars]
      split <;> rename_i heq <;> rw [heq]
    rw [hone] at hok hnew
    exact ⟨st, hst, hnew, hok, hl, hran.elsewhere⟩

/-- **What was written is read back**, by way of the same worker, where it has the entity in memory. Where it has not,
the write is a success that changes nothing, and what is read is what was there before. -/
theorem set_var_read_back (env : QueryEnv) (fate : Fate Error) (now : UInt64) (ctx ctx' : Context) (c c' : Cluster)
    (e : WorkerId) (n : ℕ) (a : Address) (v : Var) {res : Except Failure Var}
    (hset : setVar fate now ctx e a v c = (c', .ok ())) (hget : getVar env c' e ctx' n a = some res)
    (hanswered : ∀ err, res ≠ .error (.of err)) :
    if (c.inMemory e a.entity).isSome then res = .ok v else Reads c e ctx' a res := by
  have hreads := getVar_reads hget hanswered
  obtain ⟨st, hst, hst', hok, hl, helse⟩ := setVar_ok hset
  have hmem : c.inMemory e a.entity = st.inMemory a.entity := by simp only [Cluster.inMemory, hst, Option.bind_some]
  rw [hmem]
  split_ifs with hin
  · -- the worker asked has the new value, and its own value is the last one
    have hlive : liveVar c' e a = some v := by
      rcases WorkerState.setVar_written a v st with ⟨-, -, err, herr⟩ | ⟨-, -, -, hwritten⟩
      · rw [hok] at herr
        cases herr
      · simp only [liveVar, hst', Option.bind_some, hwritten, hin, Bool.and_true, Address.Names]
        simp
    rcases hreads with ⟨u, rfl, hu | ⟨hnone, -⟩⟩ | ⟨-, hnone⟩
    · rw [hlive] at hu
      rw [Option.some.inj hu]
    · rw [hlive] at hnone
      cases hnone
    · have hself := hnone e ⟨[], .here e _ _⟩
      rw [hlive] at hself
      cases hself
  · have hnone : st.inMemory a.entity = none := by simpa using hin
    refine hreads.congr hl fun u => ?_
    rcases WorkerState.setVar_spec a v st with ⟨-, hsame⟩ | ⟨e', -, hsome, -⟩ | ⟨e', hsome, -⟩
    · by_cases hu : u = e
      · rw [hu, hst', hst, hsame]
      · exact helse u hu
    · rw [hnone] at hsome
      cases hsome
    · rw [hnone] at hsome
      cases hsome

/-- a write by way of a worker without the ball, and the read after it -/
theorem set_var_read_back_elsewhere :
    ∃ c', setVar .delivered 0 GlobalQuery.asked 0 position (.int 5) twoWorkers = (c', .ok ()) ∧
      if (twoWorkers.inMemory 0 "ball").isSome then Except.ok (ε := Failure) (Var.int 3) = .ok (.int 5)
      else Reads twoWorkers 0 GlobalQuery.asked position (.ok (.int 3)) := by
  have hset : setVar .delivered 0 GlobalQuery.asked 0 position (.int 5) twoWorkers =
      ((setVar .delivered 0 GlobalQuery.asked 0 position (.int 5) twoWorkers).1, .ok ()) := rfl
  refine ⟨_, hset, ?_⟩
  exact set_var_read_back anyEnv .delivered 0 GlobalQuery.asked GlobalQuery.asked twoWorkers _ 0 2 position (.int 5)
    hset (position_read rfl rfl rfl) (fun _ h => by cases h)

end BigWorlds.Sim
