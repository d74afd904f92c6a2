import K8sSched.Bpf.Params

/-! # The cgroup file system

The cgroup v2 tree as `internal/maps/maps.go` sees it: directories with their
IDs, `filepath.WalkDir` with failing calls, the pod's directory and the IDs
below it. A path lists its components from the directory up to the root of the
cgroup file system. -/

namespace K8sSched.Agent.CgroupFs

open K8sSched.Bpf.Params

abbrev Path := List String

-- membership in lists of paths is decided through this
instance : LawfulBEq Path := List.instLawfulBEq

structure Dir where
  path : Path
  id : U64
  deriving DecidableEq

/-- The directories, and the IDs given out so far: the kernel does not use an
ID again. -/
structure CgroupTree where
  dirs : List Dir
  usedIds : List U64
  known : ∀ d ∈ dirs, d.id ∈ usedIds

def CgroupTree.paths (tree : CgroupTree) : List Path := tree.dirs.map Dir.path

/-- A new directory, in an existing one or at the top. -/
def mkdir (tree : CgroupTree) (path : Path) (id : U64) : Option CgroupTree :=
  if path ≠ [] ∧ path ∉ tree.paths ∧ (path.tail = [] ∨ path.tail ∈ tree.paths) ∧
      id ∉ tree.usedIds then
    some
      { dirs := ⟨path, id⟩ :: tree.dirs
        usedIds := id :: tree.usedIds
        known := by
          intro d hd
          rcases List.mem_cons.mp hd with rfl | hd
          · exact List.mem_cons_self
          · exact List.mem_cons_of_mem _ (tree.known d hd) }
  else none

/-- Only a directory without children can be removed. -/
def rmdir (tree : CgroupTree) (path : Path) : Option CgroupTree :=
  if path ∈ tree.paths ∧ ∀ p ∈ tree.paths, p.tail ≠ path then
    some
      { tree with
        dirs := tree.dirs.filter fun d => d.path ≠ path
        known := fun d hd => tree.known d (List.mem_of_mem_filter hd) }
  else none

theorem mkdir_spec {tree tree' : CgroupTree} {path : Path} {id : U64}
    (h : mkdir tree path id = some tree') :
    id ∉ tree.usedIds ∧ tree'.dirs = ⟨path, id⟩ :: tree.dirs ∧
      tree'.usedIds = id :: tree.usedIds := by
  unfold mkdir at h
  split at h
  · next hfresh =>
    cases h
    exact ⟨hfresh.2.2.2, rfl, rfl⟩
  · cases h

theorem rmdir_spec {tree tree' : CgroupTree} {path : Path} (h : rmdir tree path = some tree') :
    tree'.dirs = tree.dirs.filter (fun d => d.path ≠ path) ∧ tree'.usedIds = tree.usedIds := by
  unfold rmdir at h
  split at h
  · cases h
    exact ⟨rfl, rfl⟩
  · cases h

/-- Calls that fail while the tree is read: `Lstat` of the root of a walk, the
entries a failing `ReadDir` does not return, `Stat` for the ID, and `Stat` of a
candidate for a pod's directory. -/
structure Faults where
  lstat : List Path := []
  unlisted : List Path := []
  stat : List Path := []
  probe : List Path := []

/-- `WalkDir(root)` calls its function for a directory: the root, unless its
`Lstat` fails, and what is listed in a directory it calls it for. -/
def walks (f : Faults) (root : Path) : Path → Bool
  | [] => false
  | name :: parent =>
    if name :: parent = root then name :: parent ∉ f.lstat
    else walks f root parent && name :: parent ∉ f.unlisted

/-- The IDs a walk collects. -/
def walkIds (tree : CgroupTree) (f : Faults) (root : Path) : List U64 :=
  (tree.dirs.filter fun d => walks f root d.path && d.path ∉ f.stat).map Dir.id

/-! ## The kubepods roots -/

/-- Of the systemd and the cgroupfs driver. -/
def kubepodsRoots : List Path := [["kubepods.slice"], ["kubepods"]]

/-- As a list; the code collects them in a map. -/
def liveKubepodsCgroupIDs (tree : CgroupTree) (f : Faults) : List U64 :=
  kubepodsRoots.flatMap (walkIds tree f)

/-- At or below a kubepods root. -/
def underKubepods (path : Path) : Bool := kubepodsRoots.any fun root => root.isSuffixOf path

/-- The IDs of the directories that exist under a kubepods root. -/
def kubepodsIds (tree : CgroupTree) : List U64 :=
  (tree.dirs.filter fun d => underKubepods d.path).map Dir.id

/-- The sweep's walks reach a directory and its `Stat` succeeds. -/
def seen (f : Faults) (path : Path) : Bool :=
  (kubepodsRoots.any fun root => walks f root path) && path ∉ f.stat

theorem mem_liveKubepods {tree : CgroupTree} {f : Faults} {id : U64} :
    id ∈ liveKubepodsCgroupIDs tree f ↔ ∃ d ∈ tree.dirs, seen f d.path ∧ d.id = id := by
  simp only [liveKubepodsCgroupIDs, walkIds, seen, List.mem_flatMap, List.mem_map, List.mem_filter,
    Bool.and_eq_true, List.any_eq_true]
  constructor
  · intro h
    obtain ⟨root, hroot, d, ⟨hd, hwalk, hstat⟩, hid⟩ := h
    exact ⟨d, hd, ⟨⟨root, hroot, hwalk⟩, hstat⟩, hid⟩
  · intro h
    obtain ⟨d, hd, ⟨⟨root, hroot, hwalk⟩, hstat⟩, hid⟩ := h
    exact ⟨root, hroot, d, ⟨hd, hwalk, hstat⟩, hid⟩

theorem mem_kubepodsIds {tree : CgroupTree} {id : U64} :
    id ∈ kubepodsIds tree ↔ ∃ d ∈ tree.dirs, underKubepods d.path ∧ d.id = id := by
  simp only [kubepodsIds, List.mem_map, List.mem_filter, and_assoc]

/-! ## The directory of a pod -/

/-- Dashes become underscores in the names of systemd slices. -/
def systemdUID (uid : String) : String :=
  String.ofList (uid.toList.map fun c => if c = '-' then '_' else c)

def podCgroupDirCandidates (uid : String) : List Path :=
  let sysd := systemdUID uid
  [["kubepods-besteffort-pod" ++ sysd ++ ".slice", "kubepods-besteffort.slice", "kubepods.slice"],
    ["kubepods-burstable-pod" ++ sysd ++ ".slice", "kubepods-burstable.slice", "kubepods.slice"],
    ["kubepods-pod" ++ sysd ++ ".slice", "kubepods.slice"],
    ["pod" ++ uid, "besteffort", "kubepods"],
    ["pod" ++ uid, "burstable", "kubepods"],
    ["pod" ++ uid, "kubepods"]]

def findPodCgroupDir (tree : CgroupTree) (f : Faults) (uid : String) : Option Path :=
  (podCgroupDirCandidates uid).find? fun dir => dir ∈ tree.paths ∧ dir ∉ f.probe

def resolvePodCgroupIDs (tree : CgroupTree) (f : Faults) (uid : String) : List U64 :=
  if uid = "" then []
  else
    match findPodCgroupDir tree f uid with
    | none => []
    | some dir => walkIds tree f dir

theorem resolve_known {tree : CgroupTree} {f : Faults} {uid : String} {id : U64}
    (h : id ∈ resolvePodCgroupIDs tree f uid) : id ∈ tree.usedIds := by
  unfold resolvePodCgroupIDs at h
  split at h
  · cases h
  · split at h
    · cases h
    · obtain ⟨d, hd, rfl⟩ := List.mem_map.mp h
      exact tree.known d (List.mem_of_mem_filter hd)

end K8sSched.Agent.CgroupFs
