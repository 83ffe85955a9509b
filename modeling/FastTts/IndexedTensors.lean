import FastTts.Json
import Mathlib.Data.List.Dedup

/-!
# Tensors in several files

An index sends the name of a tensor to the path of the file that has it, a shard. The shards that
are open are kept under the names of their files.
-/

namespace FastTts.IndexedTensors

/-- A path that is there, and what is behind the links of a path. -/
structure FileSystem where
  isExistingFile : Bytes → Bool
  weaklyCanonical : Bytes → Bytes

/-- `lhs / rhs` of two paths. -/
def appendPath (lhs rhs : Bytes) : Bytes :=
  if rhs.head? = some 0x2F then rhs
  else if lhs = [] ∨ lhs.getLast? = some 0x2F then lhs ++ rhs
  else lhs ++ 0x2F :: rhs

def filename (path : Bytes) : Bytes := (path.reverse.takeWhile (· ≠ 0x2F)).reverse

structure RawTensorData where
  name : Bytes
  dtype : Bytes
  shape : List ℤ
  bytes : Bytes
  deriving DecidableEq, Repr

abbrev TensorSource := Bytes → Option RawTensorData

variable {N : Type}

def asObject : Json N → Except Exception (List (Bytes × Json N))
  | .object fields => .ok fields
  | _ => .error (bytes "json value is not an object")

def parseIndexedTensorWeightMap (indexPath : Bytes) (root : Json N) :
    Except Exception (List (Bytes × Bytes)) := do
  let weightMap ← root.require (bytes "weight_map")
  let object ← asObject weightMap
  let weightMap ← object.mapM fun field => field.2.asString.map (Prod.mk field.1)
  if weightMap = [] then
    .error (bytes "indexed tensor source has an empty weight_map: " ++ indexPath)
  else .ok weightMap

def shardNames (weightMap : List (Bytes × Bytes)) : List Bytes :=
  (weightMap.map Prod.snd).dedup.mergeSort (· ≤ ·)

def shardPaths (fs : FileSystem) (modelRoot : Bytes) (weightMap : List (Bytes × Bytes)) :
    Except Exception (List Bytes) :=
  (shardNames weightMap).mapM fun name =>
    let path := appendPath modelRoot name
    if fs.isExistingFile path then .ok (fs.weaklyCanonical path)
    else .error (bytes "missing indexed tensor shard: " ++ path)

structure IndexedTensorSource where
  weightMap : List (Bytes × Bytes)
  shardSources : List (Bytes × TensorSource)

/-- A shard stays under its name when another one with this name comes, and is found first. -/
def openIndexedTensorSource (fs : FileSystem) (openTensorSource : Bytes → TensorSource)
    (indexPath modelRoot : Bytes) (root : Json N) : Except Exception IndexedTensorSource := do
  let weightMap ← parseIndexedTensorWeightMap indexPath root
  let paths ← shardPaths fs modelRoot weightMap
  .ok ⟨weightMap, paths.map fun path => (filename path, openTensorSource path)⟩

namespace IndexedTensorSource

variable (source : IndexedTensorSource) (name : Bytes)

def hasTensor : Bool :=
  match source.weightMap.lookup name with
  | none => false
  | some route =>
    match source.shardSources.lookup route with
    | none => false
    | some shard => (shard name).isSome

def sourceFor : Except Exception TensorSource :=
  match source.weightMap.lookup name with
  | none => .error (bytes "missing indexed tensor route: " ++ name)
  | some route =>
    match source.shardSources.lookup route with
    | none => .error (bytes "missing indexed tensor shard source: " ++ route)
    | some shard => .ok shard

def requireTensorData : Except Exception RawTensorData := do
  let shard ← source.sourceFor name
  match shard name with
  | none => .error (bytes "missing tensor: " ++ name)
  | some tensor => .ok tensor

def requireMetadata : Except Exception (Bytes × Bytes × List ℤ) :=
  (source.requireTensorData name).map fun tensor => (name, tensor.dtype, tensor.shape)

def tensors : Except Exception (List (Bytes × Bytes × List ℤ)) :=
  (source.weightMap.mapM fun route => source.requireMetadata route.1).map fun listed =>
    listed.mergeSort fun lhs rhs => lhs.1 ≤ rhs.1

end IndexedTensorSource

/-! ## Which indexes are served -/

variable {fs : FileSystem} {openTensorSource : Bytes → TensorSource} {indexPath modelRoot : Bytes}
  {root : Json N} {weightMap : List (Bytes × Bytes)} {source : IndexedTensorSource}

def shardPath (fs : FileSystem) (modelRoot route : Bytes) : Bytes :=
  fs.weaklyCanonical (appendPath modelRoot route)

/-- Each tensor of the index is there, and comes from its shard. -/
structure Serves (source : IndexedTensorSource) (fs : FileSystem)
    (openTensorSource : Bytes → TensorSource) (modelRoot : Bytes)
    (weightMap : List (Bytes × Bytes)) : Prop where
  has : ∀ route ∈ weightMap, source.hasTensor route.1 = true
  lists : ∃ listed, source.tensors = .ok listed ∧
    (listed.map Prod.fst).Perm (weightMap.map Prod.fst)
  data : ∀ route ∈ weightMap, ∃ tensor,
    openTensorSource (shardPath fs modelRoot route.2) route.1 = some tensor ∧
      source.requireTensorData route.1 = .ok tensor

theorem mem_shardNames {name : Bytes} :
    name ∈ shardNames weightMap ↔ name ∈ weightMap.map Prod.snd := by
  rw [shardNames, List.mem_mergeSort, List.mem_dedup]

theorem openIndexedTensorSource_ok
    (hroot : parseIndexedTensorWeightMap indexPath root = .ok weightMap)
    (h : ∀ route ∈ weightMap, fs.isExistingFile (appendPath modelRoot route.2) = true) :
    openIndexedTensorSource fs openTensorSource indexPath modelRoot root =
      .ok ⟨weightMap, ((shardNames weightMap).map (shardPath fs modelRoot)).map fun path =>
        (filename path, openTensorSource path)⟩ := by
  have hpaths : shardPaths fs modelRoot weightMap =
      .ok ((shardNames weightMap).map (shardPath fs modelRoot)) := by
    refine mapM_ok fun name hname => ?_
    obtain ⟨route, hroute, rfl⟩ := List.mem_map.mp (mem_shardNames.mp hname)
    exact if_pos (h route hroute)
  simp only [openIndexedTensorSource, hroot, hpaths, bind, Except.bind]

theorem lookup_of_mem {entries : List (Bytes × Bytes)} {entry : Bytes × Bytes}
    (h : (entries.map Prod.fst).Nodup) (hentry : entry ∈ entries) :
    entries.lookup entry.1 = some entry.2 := by
  obtain ⟨before, after, rfl⟩ := List.append_of_mem hentry
  rw [List.map_append, List.map_cons, List.nodup_middle, List.nodup_cons] at h
  refine List.lookup_eq_some_iff.mpr ⟨before, after, rfl, fun other hother => ?_⟩
  have hne : entry.1 ≠ other.1 := fun heq =>
    h.1 (List.mem_append_left _ (heq ▸ List.mem_map_of_mem hother))
  simpa using hne

theorem serves_of_filename (hnames : (weightMap.map Prod.fst).Nodup)
    (hfile : ∀ route ∈ weightMap, filename (shardPath fs modelRoot route.2) = route.2)
    (hopen : ∀ route ∈ weightMap,
      (openTensorSource (shardPath fs modelRoot route.2) route.1).isSome = true)
    (hsource : source = ⟨weightMap, ((shardNames weightMap).map (shardPath fs modelRoot)).map
      fun path => (filename path, openTensorSource path)⟩) :
    Serves source fs openTensorSource modelRoot weightMap := by
  have hshard : ∀ route ∈ weightMap, source.shardSources.lookup route.2 =
      some (openTensorSource (shardPath fs modelRoot route.2)) := by
    intro route hroute
    have hname : ∀ name ∈ shardNames weightMap, filename (shardPath fs modelRoot name) = name := by
      intro name hname
      obtain ⟨other, hother, rfl⟩ := List.mem_map.mp (mem_shardNames.mp hname)
      exact hfile other hother
    have hentries : ∀ name ∈ shardNames weightMap,
        (filename (shardPath fs modelRoot name), openTensorSource (shardPath fs modelRoot name)) =
          (name, openTensorSource (shardPath fs modelRoot name)) := by
      intro name h
      rw [hname name h]
    rw [hsource, List.map_map]
    change ((shardNames weightMap).map fun name => (filename (shardPath fs modelRoot name),
      openTensorSource (shardPath fs modelRoot name))).lookup route.2 = _
    rw [List.map_congr_left hentries]
    exact List.lookup_graph (fun name => openTensorSource (shardPath fs modelRoot name))
      (mem_shardNames.mpr (List.mem_map_of_mem hroute))
  have hroute : ∀ route ∈ weightMap, source.weightMap.lookup route.1 = some route.2 := by
    rw [hsource]
    exact fun route h => lookup_of_mem hnames h
  have hdata : ∀ route ∈ weightMap, ∃ tensor,
      openTensorSource (shardPath fs modelRoot route.2) route.1 = some tensor ∧
        source.requireTensorData route.1 = .ok tensor := by
    intro route h
    obtain ⟨tensor, htensor⟩ := Option.isSome_iff_exists.mp (hopen route h)
    refine ⟨tensor, htensor, ?_⟩
    simp [IndexedTensorSource.requireTensorData, IndexedTensorSource.sourceFor, hroute route h,
      hshard route h, htensor, bind, Except.bind]
  refine ⟨fun route h => ?_, ?_, hdata⟩
  · simp only [IndexedTensorSource.hasTensor, hroute route h, hshard route h, hopen route h]
  · have hmeta : ∀ route ∈ weightMap, source.requireMetadata route.1 = .ok (route.1,
        ((openTensorSource (shardPath fs modelRoot route.2) route.1).map fun tensor =>
          (tensor.dtype, tensor.shape)).getD ([], [])) := by
      intro route h
      obtain ⟨tensor, htensor, hrequire⟩ := hdata route h
      rw [IndexedTensorSource.requireMetadata, hrequire, htensor]
      rfl
    have hlisted := mapM_ok hmeta
    rw [IndexedTensorSource.tensors, show source.weightMap = weightMap by rw [hsource], hlisted]
    refine ⟨_, rfl, ((List.mergeSort_perm _ _).map Prod.fst).trans ?_⟩
    rw [List.map_map]
    exact List.Perm.refl _

/-- The tensors of an index are served, whatever the files hold, exactly where the path of each
shard is the name of its file. -/
theorem servesAll_iff (hroot : parseIndexedTensorWeightMap indexPath root = .ok weightMap)
    (hnames : (weightMap.map Prod.fst).Nodup)
    (hexists : ∀ route ∈ weightMap, fs.isExistingFile (appendPath modelRoot route.2) = true) :
    (∀ openTensorSource : Bytes → TensorSource,
      (∀ route ∈ weightMap,
        (openTensorSource (shardPath fs modelRoot route.2) route.1).isSome = true) →
      ∃ source, openIndexedTensorSource fs openTensorSource indexPath modelRoot root = .ok source ∧
        Serves source fs openTensorSource modelRoot weightMap) ↔
      ∀ route ∈ weightMap, filename (shardPath fs modelRoot route.2) = route.2 := by
  constructor
  · -- Each file holds tensors with its own path as their data.
    intro h route hroute
    obtain ⟨source, hsource, hserves⟩ := h (fun path name => some ⟨name, [], [], path⟩)
      fun route hroute => rfl
    obtain ⟨tensor, htensor, hdata⟩ := hserves.data route hroute
    rw [openIndexedTensorSource_ok hroot hexists] at hsource
    obtain ⟨shard, hshard, hfound⟩ := except_bind_ok hdata
    cases hsource
    simp only [IndexedTensorSource.sourceFor, lookup_of_mem hnames hroute] at hshard
    split at hshard
    · simp at hshard
    · next found hlookup =>
      obtain ⟨front, back, hsplit, -⟩ := List.lookup_eq_some_iff.mp hlookup
      have hmem : (route.2, found) ∈ front ++ (route.2, found) :: back :=
        List.mem_append_right front List.mem_cons_self
      obtain ⟨path, -, hpath⟩ := List.mem_map.mp (hsplit ▸ hmem)
      obtain ⟨hname, rfl⟩ := Prod.mk.inj hpath
      cases hshard
      have hpaths : path = tensor.bytes ∧ shardPath fs modelRoot route.2 = tensor.bytes := by
        constructor
        · exact congrArg RawTensorData.bytes (Except.ok.inj hfound)
        · simpa using congrArg (Option.map RawTensorData.bytes) htensor
      rw [hpaths.2, ← hpaths.1, hname]
  · intro hfile openTensorSource hopen
    exact ⟨_, openIndexedTensorSource_ok hroot hexists, serves_of_filename hnames hfile hopen rfl⟩

/-- A file system without links, where every path is there. -/
def plainFiles : FileSystem := ⟨fun _ => true, id⟩

def index (route : Bytes) : Json ℚ :=
  .object [(bytes "weight_map", .object [(bytes "w", .string route)])]

/-- A shard beside the index. -/
theorem servesAll_iff_beside :
    ∃ source, openIndexedTensorSource plainFiles (fun path name => some ⟨name, [], [], path⟩)
        (bytes "i") (bytes "m") (index (bytes "a.st")) = .ok source ∧
      Serves source plainFiles (fun path name => some ⟨name, [], [], path⟩) (bytes "m")
        [(bytes "w", bytes "a.st")] := by
  have hroot : parseIndexedTensorWeightMap (bytes "i") (index (bytes "a.st")) =
      .ok [(bytes "w", bytes "a.st")] := rfl
  exact (servesAll_iff hroot (by decide) fun _ _ => rfl).mpr (by decide) _ fun _ _ => rfl

/-- A shard in a directory is not found. -/
theorem not_serves_directory :
    ¬ ∀ (fs : FileSystem) (openTensorSource : Bytes → TensorSource) (indexPath modelRoot : Bytes)
      (root : Json ℚ) (weightMap : List (Bytes × Bytes)),
      parseIndexedTensorWeightMap indexPath root = .ok weightMap →
      (weightMap.map Prod.fst).Nodup →
      (∀ route ∈ weightMap, fs.isExistingFile (appendPath modelRoot route.2) = true ∧
        (openTensorSource (shardPath fs modelRoot route.2) route.1).isSome = true) →
      ∃ source, openIndexedTensorSource fs openTensorSource indexPath modelRoot root = .ok source ∧
        Serves source fs openTensorSource modelRoot weightMap := by
  intro h
  have hroot : parseIndexedTensorWeightMap (bytes "i") (index (bytes "d/a.st")) =
      .ok [(bytes "w", bytes "d/a.st")] := rfl
  obtain ⟨source, hsource, hserves⟩ := h plainFiles (fun path name => some ⟨name, [], [], path⟩)
    (bytes "i") (bytes "m") (index (bytes "d/a.st")) _ hroot (by decide) fun _ _ => ⟨rfl, rfl⟩
  rw [openIndexedTensorSource_ok hroot fun _ _ => rfl] at hsource
  cases hsource
  exact absurd (hserves.has _ List.mem_cons_self) (by decide +kernel)

end FastTts.IndexedTensors
