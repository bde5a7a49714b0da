/-
Reading the model files (`model/intermediate.rs`, `Model::from_files`, `merge`; `util.rs`, `struct_from_path`).

The manifest's includes are put on a list of work. From its end a path is taken: a directory puts its entries on the
list, a file its own includes, which are relative to the directory it is in, and it is merged into the model. There is
no memory of the files that were read.

- `fromFiles_eq`: the loop is that of a work list, and the model is merged from the files in the order of reading;
- `load_iff`: the exact condition;
- `cyclic`: a manifest that includes itself.
-/
import BigWorlds.Core.Worklist
import BigWorlds.Model.Intermediate

namespace BigWorlds

/-! ## Paths

Of `std::path`, on Unix. -/

namespace Path

/-- an absolute path replaces the one before it -/
def join (base p : String) : String :=
  if p.toList.head? = some '/' then p
  else if base = "" ∨ base.toList.getLast? = some '/' then base ++ p
  else base ++ "/" ++ p

/-- parts from the end of a path, without those in front that do not count: all that are empty or a dot, but not the
last one of the list, with which the path starts -/
def trim : List String → List String
  | part :: first :: rest => if part = "" ∨ part = "." then trim (first :: rest) else part :: first :: rest
  | parts => parts

/-- the parts of a path, from its end -/
def parts (p : String) : List String := trim (Core.split '/' p).reverse

def parent (p : String) : Option String :=
  match parts p with
  | [] => none
  | [name] => if name = "" then none else some ""
  | _ :: rest =>
    let before := Core.joined '/' (trim rest).reverse
    some (if before = "" then "/" else before)

def fileName (p : String) : Option String :=
  match parts p with
  | [] => none
  | name :: _ => if name = "" ∨ name = "." ∨ name = ".." then none else some name

/-- what comes after the last dot of the file name, unless the name starts with that dot -/
def extension (p : String) : Option String :=
  (fileName p).bind fun name =>
    match (Core.split '.' name).reverse with
    | [] => none
    | [_] => none
    | ext :: before => if Core.joined '.' before.reverse = "" then none else some ext

example : parent "models/ball/main.toml" = some "models/ball" ∧ parent "/main.toml" = some "/" ∧
    parent "main.toml" = some "" ∧ extension "models/ball.v2/main.toml" = some "toml" ∧ extension ".toml" = none := by
  decide

end Path

namespace Intermediate

/-! ## Merging -/

def Meta.merge (m other : Meta) : Meta where
  name := m.name <|> other.name
  description := m.description <|> other.description
  author := m.author <|> other.author
  includes := m.includes ++ other.includes

/-- of the data the later value counts; dependencies and data files are not merged -/
def Model.merge (m other : Model) : Model :=
  { m with
    meta_ := m.meta_.merge other.meta_
    scenarios := m.scenarios ++ other.scenarios
    behaviors := m.behaviors ++ other.behaviors
    components := m.components ++ other.components
    prefabs := m.prefabs ++ other.prefabs
    entities := m.entities ++ other.entities
    data := other.data ∪ m.data }

/-! ## Reading -/

/-- how reading a file fails: it is not there, it is not a model, or by a panic at its extension -/
inductive ReadFailure where
  | notFound
  | invalid
  | panic
deriving DecidableEq, Repr

/-- a file system: the names in a directory, the file that a path opens, and what is read from a file. Two paths may
lead to one file. -/
structure FileSystem (F : Type) where
  readDir : String → Option (List String)
  openFile : String → Option F
  contents : F → Option Model

variable {F : Type} (fs : FileSystem F)

/-- `struct_from_path`, with the file that was opened -/
def structFromPath (path : String) : Except ReadFailure (F × Model) :=
  match fs.openFile path with
  | none => .error .notFound
  | some f =>
    match Path.extension path with
    | some "toml" | some "tml" =>
      match fs.contents f with
      | some m => .ok (f, m)
      | none => .error .invalid
    | _ => .error .panic

/-- the path without a wildcard at its end -/
def withoutWildcard (include_ : String) : String :=
  match include_.toList.reverse with
  | '*' :: '/' :: rest => String.ofList rest.reverse
  | _ => include_

/-- the library of a behavior in Rust, as it is built on Linux -/
def Behavior.builtLib (b : Behavior) : String :=
  if b.type_ = "rust" then
    if b.debug then "target/debug/lib" ++ b.name ++ ".so" else "target/release/lib" ++ b.name ++ ".so"
  else b.lib

/-- paths in a behavior start from where its file is -/
def Behavior.normalized (b : Behavior) (include_ parent : String) : Behavior :=
  if b.path = "" then
    { b with
      path := if b.type_ = "rust" then parent ++ "/" ++ b.path else include_
      lib := parent ++ "/" ++ b.builtLib }
  else
    { b with
      path := parent ++ "/" ++ b.path
      lib := parent ++ "/" ++ b.path ++ "/" ++ b.builtLib }

/-- so do the includes -/
def Model.normalized (m : Model) (include_ parent : String) : Model :=
  { m with
    meta_ := { m.meta_ with includes := m.meta_.includes.map (Path.join parent) }
    behaviors := m.behaviors.map (·.normalized include_ parent) }

inductive LoadFailure where
  | manifest (e : ReadFailure)
  | unableToRead (include_ : String) (e : ReadFailure)
  | panic
deriving DecidableEq, Repr

/-- an include as it is merged, with its file -/
def readInclude (include_ : String) : Except LoadFailure (F × Model) :=
  match structFromPath fs include_, Path.parent include_ with
  | .ok (f, m), some parent => .ok (f, m.normalized include_ parent)
  | .ok _, none => .error .panic
  | .error .panic, _ => .error .panic
  | .error e, _ => .error (.unableToRead include_ e)

/-- one turn of the include loop -/
def includeTurn : Model × List String → Except LoadFailure ((Model × List String) ⊕ Model)
  | (model, toInclude) =>
    match toInclude.getLast? with
    | none => .ok (.inr model)
    | some include_ =>
      let path := withoutWildcard include_
      match fs.readDir path with
      | some names => .ok (.inl (model, toInclude.dropLast ++ names.map (Path.join path)))
      | none =>
        match readInclude fs include_ with
        | .ok (_, m) => .ok (.inl (model.merge m, toInclude.dropLast ++ m.meta_.includes))
        | .error e => .error e

def manifestFile : String := "model.toml"

/-- `Model::from_files`, in at most so many turns of the loop -/
def fromFiles (turns : ℕ) : Option (Except LoadFailure Model) :=
  match structFromPath fs manifestFile with
  | .ok (_, manifest) => Core.loop (includeTurn fs) turns (manifest, manifest.meta_.includes)
  | .error .panic => some (.error .panic)
  | .error e => some (.error (.manifest e))

/-! ## The tree of includes -/

open BigWorlds.Core.Worklist (Ends Done Breaks Found Twice)

/-- what a path puts on the list -/
def expand (include_ : String) : Except LoadFailure (List String) :=
  match fs.readDir (withoutWildcard include_) with
  | some names => .ok (names.map (Path.join (withoutWildcard include_)))
  | none => (readInclude fs include_).map fun x => x.2.meta_.includes

/-- what a path merges; a directory merges nothing -/
def partAt (include_ : String) : Option (F × Model) :=
  match fs.readDir (withoutWildcard include_) with
  | some _ => none
  | none => (readInclude fs include_).toOption

def fileAt (include_ : String) : Option F := (partAt fs include_).map Prod.fst

def mergeAt (model : Model) (include_ : String) : Model :=
  match partAt fs include_ with
  | some x => model.merge x.2
  | none => model

variable {fs}

/-- the loop is that of a work list, with the model merged from what was taken -/
theorem includeLoop_eq (manifest : Model) (turns : ℕ) (taken stack : List String) :
    Core.loop (includeTurn fs) turns (taken.foldl (mergeAt fs) manifest, stack) =
      (Core.loop (Core.Worklist.turn (expand fs)) turns (taken, stack)).map
        (Except.map fun taken => taken.foldl (mergeAt fs) manifest) := by
  refine Core.loop_map (g := fun s => (s.1.foldl (mergeAt fs) manifest, s.2)) (fun s => ?_) turns (taken, stack)
  obtain ⟨taken, stack⟩ := s
  simp only [includeTurn, Core.Worklist.turn]
  cases stack.getLast? with
  | none => rfl
  | some include_ =>
    have hmerge : (taken ++ [include_]).foldl (mergeAt fs) manifest =
        mergeAt fs (taken.foldl (mergeAt fs) manifest) include_ := by
      rw [List.foldl_append, List.foldl_cons, List.foldl_nil]
    simp only [expand]
    cases hdir : fs.readDir (withoutWildcard include_) with
    | some names => simp [Except.map, hmerge, mergeAt, partAt, hdir]
    | none =>
      cases hread : readInclude fs include_ with
      | error e => simp [Except.map]
      | ok x => simp [Except.map, hmerge, mergeAt, partAt, hdir, hread, Except.toOption]

variable {f : F} {manifest : Model}

/-- what the loop ends with -/
theorem fromFiles_iff (h : structFromPath fs manifestFile = .ok (f, manifest)) {r : Except LoadFailure Model} :
    (∃ turns, fromFiles fs turns = some r) ↔ ∃ r', Ends (expand fs) manifest.meta_.includes r' ∧
      r = r'.map fun taken => taken.foldl (mergeAt fs) manifest := by
  have heq : ∀ turns, fromFiles fs turns =
      (Core.loop (Core.Worklist.turn (expand fs)) turns ([], manifest.meta_.includes)).map
        (Except.map fun taken => taken.foldl (mergeAt fs) manifest) := by
    intro turns
    simp only [fromFiles, h]
    exact includeLoop_eq manifest turns [] manifest.meta_.includes
  simp only [heq, Option.map_eq_some_iff]
  constructor
  · rintro ⟨turns, r', hloop, rfl⟩
    obtain ⟨r'', hends, rfl⟩ := Core.Worklist.loop_iff.mp ⟨turns, hloop⟩
    refine ⟨r'', hends, ?_⟩
    cases r'' <;> rfl
  · rintro ⟨r', hends, rfl⟩
    obtain ⟨turns, hloop⟩ := Core.Worklist.loop_iff.mpr ⟨r', hends, rfl⟩
    refine ⟨turns, _, hloop, ?_⟩
    cases r' <;> rfl

/-! ## What is merged -/

/-- the parts of the model, in the order in which they are merged -/
def partsOf (fs : FileSystem F) (f : F) (manifest : Model) (taken : List String) : List (F × Model) :=
  (f, manifest) :: taken.filterMap (partAt fs)

theorem foldl_mergeAt (taken : List String) (model : Model) :
    taken.foldl (mergeAt fs) model = (taken.filterMap (partAt fs)).foldl (fun m x => m.merge x.2) model := by
  induction taken generalizing model with
  | nil => rfl
  | cons include_ taken ih =>
    rw [List.foldl_cons, ih, mergeAt]
    cases hpart : partAt fs include_ with
    | none => rw [List.filterMap_cons_none hpart]
    | some x => rw [List.filterMap_cons_some hpart, List.foldl_cons]

/-- a list of a model that merging appends, and that has the same length where the paths in the model are changed -/
structure Collection (β : Type) where
  get : Model → List β
  merge : ∀ m other : Model, get (m.merge other) = get m ++ get other
  normalized : ∀ (m : Model) (include_ parent : String), (get (m.normalized include_ parent)).length = (get m).length

def scenarios : Collection Scenario := ⟨Model.scenarios, fun _ _ => rfl, fun _ _ _ => rfl⟩
def behaviors : Collection Behavior := ⟨Model.behaviors, fun _ _ => rfl, fun _ _ _ => List.length_map _⟩
def components : Collection Component := ⟨Model.components, fun _ _ => rfl, fun _ _ _ => rfl⟩
def prefabs : Collection Prefab := ⟨Model.prefabs, fun _ _ => rfl, fun _ _ _ => rfl⟩
def entities : Collection Entity := ⟨Model.entities, fun _ _ => rfl, fun _ _ _ => rfl⟩

theorem Collection.get_foldl {β : Type} (C : Collection β) (l : List (F × Model)) (m : Model) :
    C.get (l.foldl (fun m x => m.merge x.2) m) = C.get m ++ l.flatMap fun x => C.get x.2 := by
  induction l generalizing m with
  | nil => simp
  | cons x l ih => rw [List.foldl_cons, ih, C.merge, List.flatMap_cons, List.append_assoc]

/-- what is merged into a model leaves its data files and dependencies -/
theorem dataFiles_foldl (l : List (F × Model)) (m : Model) :
    (l.foldl (fun m x => m.merge x.2) m).dataFiles = m.dataFiles ∧
      (l.foldl (fun m x => m.merge x.2) m).dependencies = m.dependencies := by
  induction l generalizing m with
  | nil => exact ⟨rfl, rfl⟩
  | cons x l ih => exact ih (m.merge x.2)

/-- a value that some part has, and that no part contradicts, is in the data -/
theorem lookup_foldl {l : List (F × Model)} {m : Model} {k v : String}
    (hagree : ∀ x ∈ l, ∀ u, x.2.data.lookup k = some u → u = v)
    (hsome : m.data.lookup k = some v ∨ ∃ x ∈ l, x.2.data.lookup k = some v) :
    (l.foldl (fun m x => m.merge x.2) m).data.lookup k = some v := by
  induction l generalizing m with
  | nil =>
    rcases hsome with hm | ⟨x, hx, _⟩
    · exact hm
    · cases hx
  | cons x l ih =>
    rw [List.forall_mem_cons] at hagree
    apply ih hagree.2
    by_cases hk : k ∈ x.2.data
    · obtain ⟨u, hu⟩ := Finmap.mem_iff.mp hk
      refine Or.inl ((Finmap.lookup_union_left hk).trans ?_)
      rw [hu, hagree.1 u hu]
    · rw [List.exists_mem_cons_iff] at hsome
      rcases hsome with hm | hx | hl
      · exact Or.inl ((Finmap.lookup_union_right hk).trans hm)
      · exact absurd (Finmap.mem_of_lookup_eq_some hx) hk
      · exact Or.inr hl

/-- the manifest, or what is read of a file that it includes, directly or by way of other includes -/
inductive Part (fs : FileSystem F) (f : F) (manifest : Model) : F × Model → Prop where
  | manifest : Part fs f manifest (f, manifest)
  | included {include_ : String} {x : F × Model} : Found (expand fs) some include_ manifest.meta_.includes →
      partAt fs include_ = some x → Part fs f manifest x

/-- the file is the manifest, or a file that it includes -/
def Reachable (fs : FileSystem F) (f : F) (manifest : Model) (g : F) : Prop :=
  g = f ∨ Found (expand fs) (fileAt fs) g manifest.meta_.includes

/-- the file is in two places of the tree of includes -/
def ReachedTwice (fs : FileSystem F) (f : F) (manifest : Model) (g : F) : Prop :=
  g = f ∧ Found (expand fs) (fileAt fs) g manifest.meta_.includes ∨
    Twice (expand fs) (fileAt fs) g manifest.meta_.includes

/-- a part has the data of its file, and lists that are as long -/
structure SameContents (m part : Model) : Prop where
  length : ∀ {β : Type} (C : Collection β), (C.get part).length = (C.get m).length
  data : part.data = m.data
  dataFiles : part.dataFiles = m.dataFiles
  dependencies : part.dependencies = m.dependencies

theorem structFromPath_contents {path : String} {x : F × Model} (h : structFromPath fs path = .ok x) :
    fs.contents x.1 = some x.2 := by
  unfold structFromPath at h
  split at h
  · cases h
  · split at h
    · split at h
      · obtain rfl := Except.ok.inj h
        assumption
      · cases h
    · split at h
      · obtain rfl := Except.ok.inj h
        assumption
      · cases h
    · cases h

theorem partAt_contents {include_ : String} {x : F × Model} (h : partAt fs include_ = some x) :
    ∃ m, fs.contents x.1 = some m ∧ SameContents m x.2 := by
  unfold partAt at h
  split at h
  · cases h
  · cases hread : readInclude fs include_ with
    | error e =>
      rw [hread] at h
      cases h
    | ok y =>
      rw [hread] at h
      obtain rfl := Option.some.inj h
      unfold readInclude at hread
      split at hread
      · rename_i g m parent hstruct hparent
        obtain rfl := Except.ok.inj hread
        exact ⟨m, structFromPath_contents hstruct, fun C => C.normalized m include_ parent, rfl, rfl, rfl⟩
      all_goals cases hread

theorem Part.contents (h : structFromPath fs manifestFile = .ok (f, manifest)) {x : F × Model}
    (hx : Part fs f manifest x) : ∃ m, fs.contents x.1 = some m ∧ SameContents m x.2 := by
  cases hx with
  | manifest => exact ⟨manifest, structFromPath_contents h, fun _ => rfl, rfl, rfl, rfl⟩
  | included _ hpart => exact partAt_contents hpart

/-- the parts that are merged are parts of the tree -/
theorem part_of_mem {taken : List String} (h : Ends (expand fs) manifest.meta_.includes (.ok taken)) {x : F × Model}
    (hx : x ∈ partsOf fs f manifest taken) : Part fs f manifest x := by
  classical
  rcases List.mem_cons.mp hx with rfl | hx
  · exact .manifest
  · obtain ⟨include_, hmem, hpart⟩ := List.mem_filterMap.mp hx
    refine .included ((Core.Worklist.mem_taken_iff h).mp ?_) hpart
    rwa [List.filterMap_some]

theorem map_partsOf (taken : List String) :
    (partsOf fs f manifest taken).map Prod.fst = f :: taken.filterMap (fileAt fs) := by
  rw [partsOf, List.map_cons, List.map_filterMap]
  rfl

theorem mem_partsOf_iff {taken : List String} (h : Ends (expand fs) manifest.meta_.includes (.ok taken)) {g : F} :
    g ∈ (partsOf fs f manifest taken).map Prod.fst ↔ Reachable fs f manifest g := by
  classical
  rw [map_partsOf, List.mem_cons, Core.Worklist.mem_taken_iff h, Reachable]

theorem count_partsOf_iff [DecidableEq F] {taken : List String}
    (h : Ends (expand fs) manifest.meta_.includes (.ok taken)) {g : F} :
    2 ≤ ((partsOf fs f manifest taken).map Prod.fst).count g ↔ ReachedTwice fs f manifest g := by
  rw [map_partsOf, ReachedTwice, ← Core.Worklist.mem_taken_iff h, ← Core.Worklist.twice_taken_iff h,
    ← List.count_pos_iff]
  by_cases hg : g = f
  · subst hg
    rw [List.count_cons_self]
    simp only [true_and]
    omega
  · rw [List.count_cons_of_ne (Ne.symm hg)]
    simp only [hg, false_and, false_or]

/-! ## Each file once -/

/-- the result has the contents of each file once: there is a list of parts, one for each file that is reachable, whose
definitions put together are those of the result, and all entries of the parts' maps are in the result -/
structure HoldsOnce (fs : FileSystem F) (f : F) (manifest result : Model) (order : List (F × Model)) : Prop where
  parts : ∀ x ∈ order, Part fs f manifest x
  nodup : (order.map Prod.fst).Nodup
  files : ∀ g, g ∈ order.map Prod.fst ↔ Reachable fs f manifest g
  scenarios : result.scenarios.Perm (order.flatMap (·.2.scenarios))
  behaviors : result.behaviors.Perm (order.flatMap (·.2.behaviors))
  components : result.components.Perm (order.flatMap (·.2.components))
  prefabs : result.prefabs.Perm (order.flatMap (·.2.prefabs))
  entities : result.entities.Perm (order.flatMap (·.2.entities))
  data : ∀ x ∈ order, ∀ k v, x.2.data.lookup k = some v → result.data.lookup k = some v
  dataFiles : ∀ x ∈ order, ∀ k v, x.2.dataFiles.lookup k = some v → result.dataFiles.lookup k = some v
  dependencies : ∀ x ∈ order, ∀ k v, x.2.dependencies.lookup k = some v → result.dependencies.lookup k = some v

/-- the model defines nothing -/
structure Model.Bare (m : Model) : Prop where
  scenarios : m.scenarios = []
  behaviors : m.behaviors = []
  components : m.components = []
  prefabs : m.prefabs = []
  entities : m.entities = []

/-- a file that is in the tree twice defines nothing, the data of the files do not contradict each other, and what they
have of data files and dependencies is in the manifest -/
structure OnceOnly (fs : FileSystem F) (f : F) (manifest : Model) : Prop where
  once : ∀ g m, ReachedTwice fs f manifest g → fs.contents g = some m → m.Bare
  data : ∀ g g' m m', Reachable fs f manifest g → Reachable fs f manifest g' → fs.contents g = some m →
    fs.contents g' = some m' → ∀ k v v', m.data.lookup k = some v → m'.data.lookup k = some v' → v = v'
  dataFiles : ∀ g m, Reachable fs f manifest g → fs.contents g = some m →
    ∀ k v, m.dataFiles.lookup k = some v → manifest.dataFiles.lookup k = some v
  dependencies : ∀ g m, Reachable fs f manifest g → fs.contents g = some m →
    ∀ k v, m.dependencies.lookup k = some v → manifest.dependencies.lookup k = some v

section
variable {taken : List String} (h : structFromPath fs manifestFile = .ok (f, manifest))
  (hends : Ends (expand fs) manifest.meta_.includes (.ok taken))

/-- how many elements the collection has in the file -/
def Collection.size {β : Type} (C : Collection β) (fs : FileSystem F) (g : F) : ℕ :=
  ((fs.contents g).map fun m => (C.get m).length).getD 0

/-- what the loop leaves -/
def resultOf (fs : FileSystem F) (manifest : Model) (taken : List String) : Model :=
  taken.foldl (mergeAt fs) manifest

theorem resultOf_maps : (resultOf fs manifest taken).dataFiles = manifest.dataFiles ∧
    (resultOf fs manifest taken).dependencies = manifest.dependencies := by
  rw [resultOf, foldl_mergeAt]
  exact dataFiles_foldl _ manifest

theorem Collection.get_result {β : Type} (C : Collection β) (f : F) :
    C.get (resultOf fs manifest taken) = (partsOf fs f manifest taken).flatMap fun x => C.get x.2 := by
  rw [resultOf, foldl_mergeAt, C.get_foldl, partsOf, List.flatMap_cons]

include h hends

/-- a file that is there twice has nothing in a collection that the result holds once -/
theorem Collection.eq_nil_of_twice {β : Type} (C : Collection β) {order : List (F × Model)}
    (hparts : ∀ x ∈ order, Part fs f manifest x) (hnodup : (order.map Prod.fst).Nodup)
    (hfiles : ∀ g, g ∈ order.map Prod.fst ↔ Reachable fs f manifest g)
    (hperm : (C.get (resultOf fs manifest taken)).Perm (order.flatMap fun x => C.get x.2)) {g : F} {m : Model}
    (htwice : ReachedTwice fs f manifest g) (hg : fs.contents g = some m) : C.get m = [] := by
  classical
  -- each part has as many elements as its file
  have hsize : ∀ l : List (F × Model), (∀ x ∈ l, Part fs f manifest x) →
      (l.flatMap fun x => C.get x.2).length = ((l.map Prod.fst).map (C.size fs)).sum := by
    intro l hl
    rw [List.length_flatMap, List.map_map]
    refine congrArg List.sum (List.map_congr_left fun x hx => ?_)
    obtain ⟨m, hm, hsame⟩ := (hl x hx).contents h
    simp only [Function.comp_apply, Collection.size, hm, Option.map_some, Option.getD_some]
    exact hsame.length C
  have hsum := hperm.length_eq
  rw [C.get_result f, hsize _ hparts, hsize _ fun x hx => part_of_mem hends hx] at hsum
  have hzero := Core.Keyed.weight_eq_zero hnodup (fun g => (hfiles g).trans (mem_partsOf_iff hends).symm) hsum.symm
    ((count_partsOf_iff hends).mpr htwice)
  apply List.length_eq_zero_iff.mp
  simpa [Collection.size, hg] using hzero

theorem onceOnly_of_holds {order : List (F × Model)}
    (hholds : HoldsOnce fs f manifest (resultOf fs manifest taken) order) : OnceOnly fs f manifest := by
  have hpart : ∀ g m, Reachable fs f manifest g → fs.contents g = some m →
      ∃ x ∈ order, SameContents m x.2 := by
    intro g m hreach hg
    obtain ⟨x, hx, rfl⟩ := List.mem_map.mp ((hholds.files g).mpr hreach)
    obtain ⟨m', hm', hsame⟩ := (hholds.parts x hx).contents h
    obtain rfl := Option.some.inj (hg.symm.trans hm')
    exact ⟨x, hx, hsame⟩
  obtain ⟨hfiles, hdependencies⟩ := @resultOf_maps F fs manifest taken
  refine ⟨fun g m htwice hg => ?_, ?_, ?_, ?_⟩
  · have hnil : ∀ {β : Type} (C : Collection β), (C.get (resultOf fs manifest taken)).Perm
        (order.flatMap fun x => C.get x.2) → C.get m = [] := fun C hperm =>
      C.eq_nil_of_twice h hends hholds.parts hholds.nodup hholds.files hperm htwice hg
    exact ⟨hnil scenarios hholds.scenarios, hnil behaviors hholds.behaviors, hnil components hholds.components,
      hnil prefabs hholds.prefabs, hnil entities hholds.entities⟩
  · intro g g' m m' hg hg' hm hm' k v v' hv hv'
    obtain ⟨x, hx, hsame⟩ := hpart g m hg hm
    obtain ⟨x', hx', hsame'⟩ := hpart g' m' hg' hm'
    have hresult := hholds.data x hx k v (hsame.data ▸ hv)
    have hresult' := hholds.data x' hx' k v' (hsame'.data ▸ hv')
    exact Option.some.inj (hresult.symm.trans hresult')
  · intro g m hg hm k v hv
    obtain ⟨x, hx, hsame⟩ := hpart g m hg hm
    rw [← hfiles]
    exact hholds.dataFiles x hx k v (hsame.dataFiles ▸ hv)
  · intro g m hg hm k v hv
    obtain ⟨x, hx, hsame⟩ := hpart g m hg hm
    rw [← hdependencies]
    exact hholds.dependencies x hx k v (hsame.dependencies ▸ hv)

/-- the parts, each file's first one only -/
theorem holds_of_onceOnly (honce : OnceOnly fs f manifest) :
    ∃ order, HoldsOnce fs f manifest (resultOf fs manifest taken) order := by
  classical
  obtain ⟨order, horder, hkeys, hnodup⟩ := Core.Keyed.addNew_spec Prod.fst [] (partsOf fs f manifest taken)
  rw [List.nil_append] at horder hkeys hnodup
  have hsub : ∀ x ∈ order, x ∈ partsOf fs f manifest taken := by
    intro x hx
    rw [← horder] at hx
    exact (Core.Keyed.mem_addNew hx).resolve_left List.not_mem_nil
  have hcontents : ∀ x ∈ partsOf fs f manifest taken, Reachable fs f manifest x.1 ∧
      ∃ m, fs.contents x.1 = some m ∧ SameContents m x.2 := by
    intro x hx
    exact ⟨(mem_partsOf_iff hends).mp (List.mem_map_of_mem hx), (part_of_mem hends hx).contents h⟩
  -- what is passed over is of a file that is there twice
  have hperm : ∀ {β : Type} (C : Collection β), (∀ m : Model, m.Bare → C.get m = []) →
      (C.get (resultOf fs manifest taken)).Perm (order.flatMap fun x => C.get x.2) := by
    intro β C hbare
    apply List.Perm.of_eq
    rw [C.get_result f, ← horder, Core.Keyed.flatMap_addNew, List.flatMap_nil, List.nil_append]
    intro x hx hdrop
    have htwice := (count_partsOf_iff hends).mp (hdrop.resolve_left List.not_mem_nil)
    obtain ⟨_, m, hm, hsame⟩ := hcontents x hx
    refine List.length_eq_zero_iff.mp ((hsame.length C).trans ?_)
    rw [hbare m (honce.once x.1 m htwice hm), List.length_nil]
  obtain ⟨hfiles, hdependencies⟩ := @resultOf_maps F fs manifest taken
  refine ⟨order, fun x hx => part_of_mem hends (hsub x hx), hnodup List.nodup_nil, fun g => ?_,
    hperm scenarios fun _ hm => hm.scenarios, hperm behaviors fun _ hm => hm.behaviors,
    hperm components fun _ hm => hm.components, hperm prefabs fun _ hm => hm.prefabs,
    hperm entities fun _ hm => hm.entities, fun x hx k v hv => ?_, fun x hx k v hv => ?_, fun x hx k v hv => ?_⟩
  · rw [← mem_partsOf_iff hends]
    constructor
    · intro hg
      obtain ⟨x, hx, rfl⟩ := List.mem_map.mp hg
      exact List.mem_map_of_mem (hsub x hx)
    · intro hg
      obtain ⟨x, hx, rfl⟩ := List.mem_map.mp hg
      exact hkeys x hx
  · obtain ⟨hreach, m, hm, hsame⟩ := hcontents x (hsub x hx)
    have hagree : ∀ y ∈ partsOf fs f manifest taken, ∀ u, y.2.data.lookup k = some u → u = v := by
      intro y hy u hu
      obtain ⟨hreach', m', hm', hsame'⟩ := hcontents y hy
      exact honce.data y.1 x.1 m' m hreach' hreach hm' hm k u v (hsame'.data ▸ hu) (hsame.data ▸ hv)
    rw [resultOf, foldl_mergeAt]
    apply lookup_foldl (fun y hy => hagree y (List.mem_cons_of_mem _ hy))
    rcases List.mem_cons.mp (hsub x hx) with rfl | hin
    · exact Or.inl hv
    · exact Or.inr ⟨x, hin, hv⟩
  · obtain ⟨hreach, m, hm, hsame⟩ := hcontents x (hsub x hx)
    rw [hfiles]
    exact honce.dataFiles x.1 m hreach hm k v (hsame.dataFiles ▸ hv)
  · obtain ⟨hreach, m, hm, hsame⟩ := hcontents x (hsub x hx)
    rw [hdependencies]
    exact honce.dependencies x.1 m hreach hm k v (hsame.dependencies ▸ hv)

end

/-- loading ends, and where it succeeds the result has the contents of each file that is reachable from the manifest
once -/
structure Loads (fs : FileSystem F) : Prop where
  ends : ∃ turns r, fromFiles fs turns = some r
  once : ∀ f manifest, structFromPath fs manifestFile = .ok (f, manifest) →
    ∀ turns result, fromFiles fs turns = some (.ok result) → ∃ order, HoldsOnce fs f manifest result order

/-- **Loading ends with each file once** exactly if the manifest is not read, or the includes lead, taken from the end
of each list, to one that is not read before they lead on without end, or they come to an end everywhere, no file that
defines something is there twice, and the maps of the files are those of the result. -/
theorem load_iff (fs : FileSystem F) : Loads fs ↔
    ∀ f manifest, structFromPath fs manifestFile = .ok (f, manifest) →
      Breaks (expand fs) manifest.meta_.includes ∨
        (∀ p ∈ manifest.meta_.includes, Done (expand fs) p) ∧ OnceOnly fs f manifest := by
  constructor
  · intro hloads f manifest h
    obtain ⟨turns, r, hr⟩ := hloads.ends
    obtain ⟨r', hends, hmap⟩ := (fromFiles_iff h).mp ⟨turns, hr⟩
    cases r' with
    | error e => exact Or.inl (Core.Worklist.ends_error_iff.mp ⟨e, hends⟩)
    | ok taken =>
      obtain ⟨order, hholds⟩ := hloads.once f manifest h turns _ (hmap ▸ hr)
      exact Or.inr ⟨Core.Worklist.ends_ok_iff.mp ⟨taken, hends⟩, onceOnly_of_holds h hends hholds⟩
  · intro hcond
    refine ⟨?_, fun f manifest h turns result hresult => ?_⟩
    · cases h : structFromPath fs manifestFile with
      | error e => cases e <;> exact ⟨0, _, by simp only [fromFiles, h]; rfl⟩
      | ok x =>
        obtain ⟨f, manifest⟩ := x
        have hends : ∃ r', Ends (expand fs) manifest.meta_.includes r' := by
          rcases hcond f manifest h with hbreaks | ⟨hdone, _⟩
          · obtain ⟨e, he⟩ := Core.Worklist.ends_error_iff.mpr hbreaks
            exact ⟨_, he⟩
          · obtain ⟨taken, htaken⟩ := Core.Worklist.ends_ok_iff.mpr hdone
            exact ⟨_, htaken⟩
        obtain ⟨r', hr'⟩ := hends
        obtain ⟨turns, hturns⟩ := (fromFiles_iff h).mpr ⟨r', hr', rfl⟩
        exact ⟨turns, _, hturns⟩
    · obtain ⟨r', hends, hmap⟩ := (fromFiles_iff h).mp ⟨turns, hresult⟩
      cases r' with
      | error e => cases hmap
      | ok taken =>
        obtain rfl := Except.ok.inj hmap
        rcases hcond f manifest h with hbreaks | ⟨_, honce⟩
        · obtain ⟨e, he⟩ := Core.Worklist.ends_error_iff.mpr hbreaks
          cases hends.unique he
        · exact holds_of_onceOnly h hends honce

/-! ## A manifest that includes itself -/

def selfIncluding : FileSystem Unit where
  readDir _ := none
  openFile path := if path = manifestFile then some () else none
  contents _ := some ⟨⟨none, none, none, [manifestFile]⟩, ∅, [], [], [], [], ∅, ∅, []⟩

theorem cyclic : ¬ ∀ (F : Type) (fs : FileSystem F), Loads fs := by
  intro h
  obtain ⟨turns, r, hr⟩ := (h Unit selfIncluding).ends
  -- the list is the same after each turn
  have hnone : ∀ turns model, Core.loop (includeTurn selfIncluding) turns (model, [manifestFile]) = none := by
    intro turns
    induction turns with
    | zero => intro model; rfl
    | succ turns ih => exact fun model => ih _
  have hloop : fromFiles selfIncluding turns = none := hnone turns _
  rw [hloop] at hr
  cases hr

end Intermediate

end BigWorlds
