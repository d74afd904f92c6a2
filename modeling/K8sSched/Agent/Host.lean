import K8sSched.Lib.Runs
import K8sSched.Agent.MapOps
import K8sSched.Agent.PodSubtrees

/-! # The agent on its node

The agent's calls among what happens on the node meanwhile: cgroup directories
come and go, processes start, exit and move, PIDs are used again. A call of
`UpdatePodParams` or `RemovePodParams` first looks at the node and then writes;
the handlers make one call at a time. The periodic sweeps `cleanStalePIDs` and
`CleanStaleCgroupIDs` run beside them, check by check and deletion by deletion,
in any order. -/

namespace K8sSched.Agent.Host

open K8sSched.Bpf.Params K8sSched.Agent.Pods K8sSched.Agent.MapOps K8sSched.Agent.CgroupFs
open K8sSched.Agent.PodSubtrees K8sSched.Lib.GoMap K8sSched.Lib.Runs K8sSched.Lib.WriteRecord

/-! ## Processes -/

/-- The pod a process runs in, if any, and its cgroup directory. -/
structure Proc where
  pod : Option String
  cgroup : Dir
  deriving DecidableEq

abbrev ProcTable := Finmap fun _ : U32 => Proc

/-- The processes of a pod stay in its subtree. Where the pods are not under the
known roots, that is no place of another pod either. -/
def belongs (pod : Option String) (dir : Dir) : Bool :=
  match pod with
  | none => true
  | some uid => isUid uid && (inSubtree uid dir.path || !underKubepods dir.path)

/-- What the scheduler sees of a process. -/
def taskOf (pid : U32) (p : Proc) : Task := ⟨pid, some p.cgroup.id⟩

/-- The content of `/proc/<pid>/cgroup`. -/
def Proc.cgroupFile (p : Proc) : String :=
  "0::/" ++ String.intercalate "/" p.cgroup.path.reverse ++ "\n"

/-- Failing reads of the process files, and the listing of `/proc`, which may be
an older one from the cache. -/
structure HostFaults extends Faults where
  procs : List Path := []
  listed : Finset U32 := ∅
  cgroupFiles : List U32 := []

/-- The PIDs in the `cgroup.procs` files of the pod's subtree. -/
def resolveViaCgroupV2 (tree : CgroupTree) (procs : ProcTable) (f : HostFaults) (uid : String) :
    Finset U32 :=
  match findPodCgroupDir tree f.toFaults uid with
  | none => ∅
  | some dir => procs.keys.filter fun pid => (procs.lookup pid).any fun p =>
      walks f.toFaults dir p.cgroup.path && p.cgroup.path ∉ f.procs

def podMarkers (uid : String) : List String :=
  if systemdUID uid ≠ uid then ["pod" ++ uid, "pod" ++ systemdUID uid] else ["pod" ++ uid]

/-- The listed PIDs whose cgroup file names the pod. -/
def resolveViaProcScan (procs : ProcTable) (f : HostFaults) (uid : String) : Finset U32 :=
  f.listed.filter fun pid => (procs.lookup pid).any fun p =>
    pid ∉ f.cgroupFiles &&
      (podMarkers uid).any fun marker => marker.toList <:+: p.cgroupFile.toList

def resolvePodPIDs (tree : CgroupTree) (procs : ProcTable) (f : HostFaults) (uid : String) :
    Finset U32 :=
  if uid = "" then ∅
  else if resolveViaCgroupV2 tree procs f uid ≠ ∅ then resolveViaCgroupV2 tree procs f uid
  else resolveViaProcScan procs f uid

/-! ## Calls -/

inductive Call
  | update (c : Update)
  | remove (r : Removal)

def Call.uid : Call → String
  | .update c => c.pod.uid
  | .remove r => r.pod.uid

/-- The cgroup IDs resolved for the call. -/
def Call.cgids : Call → List U64
  | .update c => c.cgids.map Put.key
  | .remove r => r.cgids

/-- The PIDs resolved for the call. -/
def Call.pids : Call → List U32
  | .update c => c.pids.map Put.key
  | .remove r => r.pids

def Call.apply (m : Maps) : Call → Maps
  | .update c => (updatePodParams m c).1
  | .remove r => removePodParams m r

/-- What the call writes with is what it finds on the node. -/
def Call.FoundOn (call : Call) (tree : CgroupTree) (procs : ProcTable) (f : HostFaults) : Prop :=
  call.cgids.Perm (resolvePodCgroupIDs tree f.toFaults call.uid) ∧
    call.pids.toFinset = resolvePodPIDs tree procs f call.uid

instance (call : Call) (tree : CgroupTree) (procs : ProcTable) (f : HostFaults) :
    Decidable (call.FoundOn tree procs f) := inferInstanceAs (Decidable (_ ∧ _))

/-! ## The node -/

/-- The node and the agent: the directories that exist and all there have been,
the processes, the maps, the call that is about to write, and what the sweeps
hold between their checks and their deletions. -/
structure Node where
  tree : CgroupTree
  created : List Dir
  procs : ProcTable
  maps : Maps
  call : Option Call
  stalePIDs : Finset U32
  live : List U64
  staleCgroupIDs : Finset U64

inductive Action
  | mkdir (path : Path) (id : U64)
  | rmdir (path : Path)
  /-- A new process, forked or first of its pod, under a free PID. -/
  | start (pid : U32) (pod : Option String) (dir : Dir)
  | exit (pid : U32)
  | migrate (pid : U32) (dir : Dir)
  /-- A call looks at the node. -/
  | find (call : Call) (f : HostFaults)
  | write
  /-- `cleanStalePIDs` finds no process for a key. -/
  | checkPID (pid : U32)
  | deletePID (pid : U32) (ok : Bool)
  /-- `CleanStaleCgroupIDs` walks the kubepods tree. -/
  | walkKubepods (f : Faults)
  | checkCgroupID (id : U64)
  | deleteCgroupID (id : U64) (ok : Bool)

inductive Event
  | updated (c : Update) (err : Option String)
  | removed (r : Removal)

def deleteIf {κ : Type} [DecidableEq κ] (ok : Bool) (map : Finmap fun _ : κ => TaskParams)
    (key : κ) : Finmap fun _ : κ => TaskParams :=
  if ok then map.erase key else map

theorem lookup_deleteIf {κ : Type} [DecidableEq κ] {ok : Bool}
    {map : Finmap fun _ : κ => TaskParams} {key k : κ} {tp : TaskParams}
    (h : (deleteIf ok map key).lookup k = some tp) : map.lookup k = some tp := by
  unfold deleteIf at h
  split at h
  · exact (lookup_erase_eq_some.mp h).2
  · exact h

def step (s : Node) : Action → Option (Node × List Event)
  | .mkdir path id => (mkdir s.tree path id).map fun tree =>
      ({ s with tree := tree, created := ⟨path, id⟩ :: s.created }, [])
  | .rmdir path =>
    -- a directory with processes is busy
    if (s.procs.keys.filter fun pid =>
        (s.procs.lookup pid).any fun p => p.cgroup.path = path) ≠ ∅ then none
    else (rmdir s.tree path).map fun tree => ({ s with tree := tree }, [])
  | .start pid pod dir =>
    if pid ∉ s.procs ∧ dir ∈ s.tree.dirs ∧ belongs pod dir then
      some ({ s with procs := s.procs.insert pid ⟨pod, dir⟩ }, [])
    else none
  | .exit pid =>
    if pid ∈ s.procs then some ({ s with procs := s.procs.erase pid }, []) else none
  | .migrate pid dir =>
    match s.procs.lookup pid with
    | none => none
    | some p =>
      if dir ∈ s.tree.dirs ∧ belongs p.pod dir then
        some ({ s with procs := s.procs.insert pid ⟨p.pod, dir⟩ }, [])
      else none
  | .find call f =>
    if s.call.isNone ∧ isUid call.uid ∧ call.FoundOn s.tree s.procs f then
      some ({ s with call := some call }, [])
    else none
  | .write =>
    match s.call with
    | none => none
    | some (.update c) =>
      some ({ s with maps := (updatePodParams s.maps c).1, call := none },
        [.updated c (updatePodParams s.maps c).2])
    | some (.remove r) =>
      some ({ s with maps := removePodParams s.maps r, call := none }, [.removed r])
  | .checkPID pid =>
    if pid ∈ s.maps.kernel.taskParams ∧ pid ∉ s.procs then
      some ({ s with stalePIDs := insert pid s.stalePIDs }, [])
    else none
  | .deletePID pid ok =>
    if pid ∈ s.stalePIDs then
      some ({ s with
        stalePIDs := s.stalePIDs.erase pid
        maps := { s.maps with kernel := { s.maps.kernel with
          taskParams := deleteIf ok s.maps.kernel.taskParams pid } } }, [])
    else none
  | .walkKubepods f =>
    -- an empty walk ends the sweep
    some ({ s with live := liveKubepodsCgroupIDs s.tree f, staleCgroupIDs := ∅ }, [])
  | .checkCgroupID id =>
    if s.live ≠ [] ∧ id ∈ s.maps.kernel.cgroupParams ∧ id ∉ s.live then
      some ({ s with staleCgroupIDs := insert id s.staleCgroupIDs }, [])
    else none
  | .deleteCgroupID id ok =>
    if id ∈ s.staleCgroupIDs then
      some ({ s with
        staleCgroupIDs := s.staleCgroupIDs.erase id
        maps := { s.maps with kernel := { s.maps.kernel with
          cgroupParams := deleteIf ok s.maps.kernel.cgroupParams id } } }, [])
    else none

/-- The agent starts on a node with these directories, over the contents of the
pinned maps, with nothing recorded. -/
def boot (tree : CgroupTree) (kernel : ParamMaps) (taskParamsOpen cgroupParamsOpen : Bool) :
    Node where
  tree := tree
  created := tree.dirs
  procs := ∅
  maps := { opened taskParamsOpen cgroupParamsOpen with kernel := kernel }
  call := none
  stalePIDs := ∅
  live := []
  staleCgroupIDs := ∅

/-! ## What a step can do -/

inductive Does (s : Node) : Action → Node → List Event → Prop
  | mkdir {path : Path} {id : U64} {tree : CgroupTree} (h : mkdir s.tree path id = some tree) :
      Does s (.mkdir path id) { s with tree := tree, created := ⟨path, id⟩ :: s.created } []
  | rmdir {path : Path} {tree : CgroupTree} (h : rmdir s.tree path = some tree) :
      Does s (.rmdir path) { s with tree := tree } []
  | start {pid : U32} {pod : Option String} {dir : Dir} (hfree : pid ∉ s.procs)
      (hdir : dir ∈ s.tree.dirs) (hpod : belongs pod dir) :
      Does s (.start pid pod dir) { s with procs := s.procs.insert pid ⟨pod, dir⟩ } []
  | exit {pid : U32} : Does s (.exit pid) { s with procs := s.procs.erase pid } []
  | migrate {pid : U32} {p : Proc} {dir : Dir} (hp : s.procs.lookup pid = some p)
      (hdir : dir ∈ s.tree.dirs) (hpod : belongs p.pod dir) :
      Does s (.migrate pid dir) { s with procs := s.procs.insert pid ⟨p.pod, dir⟩ } []
  | find {call : Call} {f : HostFaults} (hcall : s.call = none) (huid : isUid call.uid)
      (hfound : call.FoundOn s.tree s.procs f) :
      Does s (.find call f) { s with call := some call } []
  | update {c : Update} (hcall : s.call = some (.update c)) :
      Does s .write { s with maps := (updatePodParams s.maps c).1, call := none }
        [.updated c (updatePodParams s.maps c).2]
  | remove {r : Removal} (hcall : s.call = some (.remove r)) :
      Does s .write { s with maps := removePodParams s.maps r, call := none } [.removed r]
  | checkPID {pid : U32} :
      Does s (.checkPID pid) { s with stalePIDs := insert pid s.stalePIDs } []
  | deletePID {pid : U32} {ok : Bool} :
      Does s (.deletePID pid ok)
        { s with
          stalePIDs := s.stalePIDs.erase pid
          maps := { s.maps with kernel := { s.maps.kernel with
            taskParams := deleteIf ok s.maps.kernel.taskParams pid } } } []
  | walkKubepods {f : Faults} :
      Does s (.walkKubepods f)
        { s with live := liveKubepodsCgroupIDs s.tree f, staleCgroupIDs := ∅ } []
  | checkCgroupID {id : U64} :
      Does s (.checkCgroupID id) { s with staleCgroupIDs := insert id s.staleCgroupIDs } []
  | deleteCgroupID {id : U64} {ok : Bool} :
      Does s (.deleteCgroupID id ok)
        { s with
          staleCgroupIDs := s.staleCgroupIDs.erase id
          maps := { s.maps with kernel := { s.maps.kernel with
            cgroupParams := deleteIf ok s.maps.kernel.cgroupParams id } } } []

theorem step_does {s t : Node} {a : Action} {es : List Event} (h : step s a = some (t, es)) :
    Does s a t es := by
  cases a with
  | mkdir path id =>
    obtain ⟨tree, htree, heq⟩ := Option.map_eq_some_iff.mp h
    cases heq
    exact .mkdir htree
  | rmdir path =>
    simp only [step] at h
    split at h
    · cases h
    · obtain ⟨tree, htree, heq⟩ := Option.map_eq_some_iff.mp h
      cases heq
      exact .rmdir htree
  | start pid pod dir =>
    simp only [step] at h
    split at h
    · next hg => cases h; exact .start hg.1 hg.2.1 hg.2.2
    · cases h
  | exit pid =>
    simp only [step] at h
    split at h
    · cases h; exact .exit
    · cases h
  | migrate pid dir =>
    simp only [step] at h
    split at h
    · cases h
    · next p hp =>
      split at h
      · next hg => cases h; exact .migrate hp hg.1 hg.2
      · cases h
  | find call f =>
    simp only [step] at h
    split at h
    · next hg => cases h; exact .find (Option.isNone_iff_eq_none.mp hg.1) hg.2.1 hg.2.2
    · cases h
  | write =>
    simp only [step] at h
    split at h
    · cases h
    · next c hcall => cases h; exact .update hcall
    · next r hcall => cases h; exact .remove hcall
  | checkPID pid =>
    simp only [step] at h
    split at h
    · cases h; exact .checkPID
    · cases h
  | deletePID pid ok =>
    simp only [step] at h
    split at h
    · cases h; exact .deletePID
    · cases h
  | walkKubepods f => cases h; exact .walkKubepods
  | checkCgroupID id =>
    simp only [step] at h
    split at h
    · cases h; exact .checkCgroupID
    · cases h
  | deleteCgroupID id ok =>
    simp only [step] at h
    split at h
    · cases h; exact .deleteCgroupID
    · cases h

theorem write_updated {s t : Node} {c : Update} {err : Option String}
    (h : step s .write = some (t, [.updated c err])) :
    s.call = some (.update c) ∧
      t = { s with maps := (updatePodParams s.maps c).1, call := none } := by
  simp only [step] at h
  split at h
  · cases h
  · next c' hcall =>
    simp only [Option.some.injEq, Prod.mk.injEq, List.cons.injEq, Event.updated.injEq] at h
    obtain ⟨rfl, ⟨rfl, -⟩, -⟩ := h
    exact ⟨hcall, rfl⟩
  · simp at h

/-! ## IDs and their owners -/

/-- The ID of a directory that is or was in the pod's subtree. -/
def Owned (created : List Dir) (uid : String) (id : U64) : Prop :=
  ∃ d ∈ created, d.id = id ∧ inSubtree uid d.path

/-- IDs are not used again, so an ID belongs to one pod at most. -/
theorem Owned.unique {created : List Dir} (hids : (created.map Dir.id).Nodup) {u v : String}
    {id : U64} (hu : isUid u) (hv : isUid v) (h : Owned created u id) (h' : Owned created v id) :
    u = v := by
  obtain ⟨d, hd, rfl, hsub⟩ := h
  obtain ⟨d', hd', hid, hsub'⟩ := h'
  rw [List.inj_on_of_nodup_map hids hd' hd hid] at hsub'
  exact subtree_unique hu hv hsub hsub'

theorem Owned.mono {created created' : List Dir} (hsub : ∀ d ∈ created, d ∈ created')
    {uid : String} {id : U64} (h : Owned created uid id) : Owned created' uid id := by
  obtain ⟨d, hd, hid⟩ := h
  exact ⟨d, hsub d hd, hid⟩

/-- The cgroup IDs remembered for a pod. -/
def recordedIDs (m : Maps) (uid : String) : List U64 := (m.podCgroupIDs.lookup uid).getD []

/-- What holds in every state: the directories of all times have distinct IDs,
the processes are in one of them and stay in their pod, and what a call has
found and what is recorded lies in the subtree of its pod. -/
structure Wf (s : Node) : Prop where
  ids : (s.created.map Dir.id).Nodup
  used : ∀ d ∈ s.created, d.id ∈ s.tree.usedIds
  dirs : ∀ d ∈ s.tree.dirs, d ∈ s.created
  procs : ∀ pid p, s.procs.lookup pid = some p → p.cgroup ∈ s.created ∧ belongs p.pod p.cgroup
  call : ∀ call ∈ s.call, isUid call.uid ∧ ∀ id ∈ call.cgids, Owned s.created call.uid id
  recorded : ∀ uid, ∀ id ∈ recordedIDs s.maps uid, isUid uid ∧ Owned s.created uid id

theorem boot_wf {tree : CgroupTree} (hids : (tree.dirs.map Dir.id).Nodup) (kernel : ParamMaps)
    (taskParamsOpen cgroupParamsOpen : Bool) :
    Wf (boot tree kernel taskParamsOpen cgroupParamsOpen) where
  ids := hids
  used := tree.known
  dirs := fun _ hd => hd
  procs := by
    intro pid p h
    cases h
  call := by
    intro call h
    cases h
  recorded := by
    intro uid id h
    cases h

/-! ## Calls and the PID channel -/

/-- The PIDs an update writes. -/
def pidKeys (taskParamsOpen cgroupParamsOpen : Bool) (c : Update) : List U32 :=
  if taskParamsOpen ∧ ¬ c.TakesCgroupPath cgroupParamsOpen ∧ c.pod.uid ≠ "" then succeeded c.pids
  else []

theorem lookup_update_pid (m : Maps) (c : Update) (pid : U32) :
    (updatePodParams m c).1.kernel.taskParams.lookup pid =
      if pid ∈ pidKeys m.taskParamsOpen m.cgroupParamsOpen c then some c.params
      else m.kernel.taskParams.lookup pid := by
  change (updatePodParams m c).1.taskLedger.store.lookup pid = _
  rw [update_taskLedger]
  by_cases hp : m.taskParamsOpen ∧ ¬ c.TakesCgroupPath m.cgroupParamsOpen ∧ c.pod.uid ≠ ""
  · rw [Update.taskWrite, if_pos hp, pidKeys, if_pos hp]
    exact lookup_insertAll _ _ _ _
  · rw [Update.taskWrite, if_neg hp, pidKeys, if_neg hp, if_neg List.not_mem_nil]
    rfl

/-- A removal writes no PID. -/
theorem lookup_remove_pid (m : Maps) (r : Removal) {pid : U32} {tp : TaskParams}
    (h : (removePodParams m r).kernel.taskParams.lookup pid = some tp) :
    m.kernel.taskParams.lookup pid = some tp := by
  unfold removePodParams at h
  split at h
  · simp only [deleteAll, lookup_eraseAll] at h
    split at h
    · cases h
    · exact h
  · exact h

/-! ## Calls and the cgroup channel -/

/-- The cgroup IDs an update writes. -/
def cgroupKeys (taskParamsOpen cgroupParamsOpen : Bool) (c : Update) : List U64 :=
  if taskParamsOpen ∧ c.TakesCgroupPath cgroupParamsOpen then succeeded c.cgids else []

/-- What a call makes of the entry under a cgroup ID; `none` where it leaves it
as it is. -/
def Call.effect (m : Maps) (id : U64) : Call → Option (Option TaskParams)
  | .update c =>
    if id ∈ cgroupKeys m.taskParamsOpen m.cgroupParamsOpen c then some (some c.params) else none
  | .remove r =>
    if m.taskParamsOpen ∧ m.cgroupParamsOpen ∧
        (id ∈ recordedIDs m r.pod.uid ∨ id ∈ r.resolvePodCgroupIDs) ∧ id ∉ r.failingCgids then
      some none
    else none

section Calls

variable {m : Maps} {x : Call} {uid : String} {id : U64}

theorem lookup_apply (m : Maps) (x : Call) (id : U64) :
    (x.apply m).kernel.cgroupParams.lookup id =
      (x.effect m id).getD (m.kernel.cgroupParams.lookup id) := by
  cases x with
  | update c =>
    change (updatePodParams m c).1.cgroupLedger.store.lookup id = _
    rw [update_cgroupLedger]
    simp only [Call.effect]
    by_cases hp : m.taskParamsOpen ∧ c.TakesCgroupPath m.cgroupParamsOpen
    · rw [Update.cgroupWrite, if_pos hp, cgroupKeys, if_pos hp]
      change (insertAll m.kernel.cgroupParams (succeeded c.cgids) c.params).lookup id = _
      rw [lookup_insertAll]
      split
      · rfl
      · rfl
    · rw [Update.cgroupWrite, if_neg hp, cgroupKeys, if_neg hp, if_neg List.not_mem_nil]
      rfl
  | remove r =>
    cases htask : m.taskParamsOpen with
    | false => simp [Call.apply, removePodParams, Call.effect, htask]
    | true =>
      cases hcg : m.cgroupParamsOpen with
      | false => simp [Call.apply, removePodParams, Call.effect, htask, hcg]
      | true =>
        simp only [Call.apply, removePodParams, htask, hcg, if_true, deleteAll, lookup_eraseAll,
          List.mem_filter, List.mem_append, Call.effect, decide_eq_true_eq, true_and, recordedIDs]
        split
        · rfl
        · rfl

theorem apply_open (m : Maps) (x : Call) :
    (x.apply m).taskParamsOpen = m.taskParamsOpen ∧
      (x.apply m).cgroupParamsOpen = m.cgroupParamsOpen := by
  cases x with
  | update c => exact ⟨update_taskParamsOpen m c, update_cgroupParamsOpen m c⟩
  | remove r =>
    simp only [Call.apply, removePodParams]
    split
    · exact ⟨rfl, rfl⟩
    · exact ⟨rfl, rfl⟩

theorem succeeded_subset {κ ε : Type} [DecidableEq κ] (l : List (Put κ ε)) :
    ∀ k ∈ succeeded l, k ∈ l.map Put.key := by
  intro k hk
  obtain ⟨p, hp, rfl⟩ := List.mem_map.mp hk
  exact List.mem_map_of_mem (List.mem_of_mem_filter hp)

theorem cgroupKeys_subset (taskParamsOpen cgroupParamsOpen : Bool) (c : Update) :
    ∀ id ∈ cgroupKeys taskParamsOpen cgroupParamsOpen c, id ∈ (Call.update c).cgids := by
  intro id hid
  unfold cgroupKeys at hid
  split at hid
  · exact succeeded_subset _ id hid
  · cases hid

/-- What is recorded after an update: for its pod the IDs written, for the
others what was. -/
theorem recorded_update (m : Maps) (c : Update) (uid : String) :
    recordedIDs (updatePodParams m c).1 uid =
      if m.taskParamsOpen ∧ c.TakesCgroupPath m.cgroupParamsOpen ∧ uid = c.pod.uid then
        succeeded c.cgids
      else recordedIDs m uid := by
  change ((updatePodParams m c).1.cgroupLedger.record.lookup uid).getD [] = _
  rw [update_cgroupLedger]
  by_cases hp : m.taskParamsOpen ∧ c.TakesCgroupPath m.cgroupParamsOpen
  · rw [Update.cgroupWrite, if_pos hp]
    change ((m.podCgroupIDs.insert c.pod.uid (succeeded c.cgids)).lookup uid).getD [] = _
    by_cases hu : uid = c.pod.uid
    · rw [if_pos ⟨hp.1, hp.2, hu⟩, hu, Finmap.lookup_insert, Option.getD_some]
    · rw [if_neg fun h => hu h.2.2, Finmap.lookup_insert_of_ne _ hu, recordedIDs]
  · rw [Update.cgroupWrite, if_neg hp, if_neg fun h => hp ⟨h.1, h.2.1⟩]
    rfl

theorem recorded_remove (m : Maps) (r : Removal) (uid : String) :
    recordedIDs (removePodParams m r) uid =
      if m.taskParamsOpen ∧ uid = r.pod.uid then [] else recordedIDs m uid := by
  unfold removePodParams
  cases m.taskParamsOpen with
  | false => simp
  | true =>
    change ((m.podCgroupIDs.erase r.pod.uid).lookup uid).getD [] = _
    by_cases hu : uid = r.pod.uid
    · rw [if_pos ⟨rfl, hu⟩, hu, Finmap.lookup_erase, Option.getD_none]
    · rw [if_neg fun h => hu h.2, Finmap.lookup_erase_ne hu, recordedIDs]

/-- A call records under its own pod only. -/
theorem recorded_apply_ne (m : Maps) (hu : uid ≠ x.uid) :
    recordedIDs (x.apply m) uid = recordedIDs m uid := by
  cases x with
  | update c => exact (recorded_update m c uid).trans (if_neg fun h => hu h.2.2)
  | remove r => exact (recorded_remove m r uid).trans (if_neg fun h => hu h.2)

theorem recorded_apply (h : id ∈ recordedIDs (x.apply m) uid) :
    id ∈ recordedIDs m uid ∨ uid = x.uid ∧ id ∈ x.cgids := by
  cases x with
  | update c =>
    rw [Call.apply, recorded_update] at h
    split at h
    · next hc => exact .inr ⟨hc.2.2, succeeded_subset _ id h⟩
    · exact .inl h
  | remove r =>
    rw [Call.apply, recorded_remove] at h
    split at h
    · cases h
    · exact .inl h

/-- A call touches the IDs resolved for it and those recorded for its pod. -/
theorem effect_subset (h : x.effect m id ≠ none) : id ∈ x.cgids ∨ id ∈ recordedIDs m x.uid := by
  cases x with
  | update c =>
    simp only [Call.effect] at h
    split at h
    · next hc => exact .inl (cgroupKeys_subset _ _ c id hc)
    · exact absurd rfl h
  | remove r =>
    simp only [Call.effect] at h
    split at h
    · next hc =>
      rcases hc.2.2.1 with hid | hid
      · exact .inr hid
      · unfold Removal.resolvePodCgroupIDs resolveFor at hid
        split at hid
        · cases hid
        · exact .inl hid
    · exact absurd rfl h

end Calls

theorem resolved_owned {s : Node} (hs : Wf s) {f : Faults} {uid : String} {id : U64}
    (h : id ∈ resolvePodCgroupIDs s.tree f uid) : Owned s.created uid id := by
  obtain ⟨d, hd, heq, hsub⟩ := resolved_in_subtree h
  exact ⟨d, hs.dirs d hd, heq, hsub⟩

theorem Call.FoundOn.owned {call : Call} {s : Node} {f : HostFaults} (hs : Wf s)
    (h : call.FoundOn s.tree s.procs f) {id : U64} (hid : id ∈ call.cgids) :
    Owned s.created call.uid id :=
  resolved_owned hs (h.1.mem_iff.mp hid)

/-- The keys a call touches are its pod's. -/
theorem effect_owned {s : Node} {x : Call} (hs : Wf s)
    (hx : ∀ id ∈ x.cgids, Owned s.created x.uid id) {id : U64}
    (h : x.effect s.maps id ≠ none) : Owned s.created x.uid id := by
  rcases effect_subset h with hid | hid
  · exact hx id hid
  · exact (hs.recorded x.uid id hid).2

theorem apply_lookup_of_not_owned {s : Node} {x : Call} (hs : Wf s)
    (hx : ∀ id ∈ x.cgids, Owned s.created x.uid id) {id : U64} (h : ¬ Owned s.created x.uid id) :
    (x.apply s.maps).kernel.cgroupParams.lookup id = s.maps.kernel.cgroupParams.lookup id := by
  have hnone : x.effect s.maps id = none := by
    by_contra hne
    exact h (effect_owned hs hx hne)
  rw [lookup_apply, hnone, Option.getD_none]

section Step

variable {s t : Node} {a : Action} {es : List Event}

theorem Wf.insertProc (h : Wf s) {pod : Option String} {dir : Dir} (hdir : dir ∈ s.tree.dirs)
    (hpod : belongs pod dir) (pid : U32) :
    Wf { s with procs := s.procs.insert pid ⟨pod, dir⟩ } := by
  refine { h with procs := fun q p hp => ?_ }
  rcases lookup_insert_eq_some.mp hp with ⟨-, rfl⟩ | ⟨-, hp⟩
  · exact ⟨h.dirs dir hdir, hpod⟩
  · exact h.procs q p hp

theorem Wf.step (h : Wf s) (hs : Does s a t es) : Wf t := by
  cases hs with
  | @mkdir path id tree hmk =>
    obtain ⟨hfresh, hdirs, hused⟩ := mkdir_spec hmk
    have hgrow : ∀ d ∈ s.created, d ∈ (⟨path, id⟩ : Dir) :: s.created :=
      fun d hd => List.mem_cons_of_mem _ hd
    refine ⟨?_, ?_, ?_, ?_, ?_, ?_⟩
    · refine List.nodup_cons.mpr ⟨fun hmem => ?_, h.ids⟩
      obtain ⟨d, hd, hid⟩ := List.mem_map.mp hmem
      have hid : d.id = id := hid
      exact hfresh (hid ▸ h.used d hd)
    · intro d hd
      rw [hused]
      rcases List.mem_cons.mp hd with rfl | hd
      · exact List.mem_cons_self
      · exact List.mem_cons_of_mem _ (h.used d hd)
    · intro d hd
      rw [hdirs] at hd
      rcases List.mem_cons.mp hd with rfl | hd
      · exact List.mem_cons_self
      · exact hgrow d (h.dirs d hd)
    · intro pid p hp
      obtain ⟨hmem, hpod⟩ := h.procs pid p hp
      exact ⟨hgrow _ hmem, hpod⟩
    · intro call hcall
      obtain ⟨huid, howned⟩ := h.call call hcall
      exact ⟨huid, fun id hid => (howned id hid).mono hgrow⟩
    · intro uid id hid
      obtain ⟨huid, howned⟩ := h.recorded uid id hid
      exact ⟨huid, howned.mono hgrow⟩
  | rmdir hrm =>
    obtain ⟨hdirs, hused⟩ := rmdir_spec hrm
    refine { h with used := ?_, dirs := ?_ }
    · intro d hd
      rw [hused]
      exact h.used d hd
    · intro d hd
      rw [hdirs] at hd
      exact h.dirs d (List.mem_of_mem_filter hd)
  | start _ hdir hpod => exact h.insertProc hdir hpod _
  | @exit pid =>
    exact { h with procs := fun q p hp => h.procs q p (lookup_erase_eq_some.mp hp).2 }
  | migrate _ hdir hpod => exact h.insertProc hdir hpod _
  | find _ huid hfound =>
    refine { h with call := fun call hcall => ?_ }
    cases hcall
    exact ⟨huid, fun id hid => hfound.owned h hid⟩
  | update hcall =>
    obtain ⟨huid, howned⟩ := h.call _ hcall
    refine { h with call := fun call hc => (by cases hc), recorded := fun uid id hid => ?_ }
    rcases recorded_apply (x := .update _) hid with hold | ⟨rfl, hnew⟩
    · exact h.recorded uid id hold
    · exact ⟨huid, howned id hnew⟩
  | remove hcall =>
    obtain ⟨huid, howned⟩ := h.call _ hcall
    refine { h with call := fun call hc => (by cases hc), recorded := fun uid id hid => ?_ }
    rcases recorded_apply (x := .remove _) hid with hold | ⟨rfl, hnew⟩
    · exact h.recorded uid id hold
    · exact ⟨huid, howned id hnew⟩
  | checkPID | deletePID | walkKubepods | checkCgroupID | deleteCgroupID =>
    exact { h with }

theorem Does.created_subset (hs : Does s a t es) : ∀ d ∈ s.created, d ∈ t.created := by
  cases hs with
  | mkdir => exact fun d hd => List.mem_cons_of_mem _ hd
  | _ => exact fun d hd => hd

end Step

theorem run_created_subset {ok : Node → Action → Prop} {s t : Node} {tr : List Event}
    (hrun : Run step ok s tr t) : ∀ d ∈ s.created, d ∈ t.created :=
  hrun.invariant (I := fun _ t => ∀ d ∈ s.created, d ∈ t.created) (fun _ hd => hd)
    fun _ _ _ _ _ ih _ hs d hd => (step_does hs).created_subset d (ih d hd)

theorem run_wf {ok : Node → Action → Prop} {s t : Node} {tr : List Event} (hs : Wf s)
    (hrun : Run step ok s tr t) : Wf t :=
  hrun.invariant (I := fun _ s => Wf s) hs fun _ _ _ _ _ ih _ hstep => ih.step (step_does hstep)

/-! ## A small node -/

def dirA : Dir := ⟨["poda", "kubepods"], 2⟩
def dirB : Dir := ⟨["podb", "kubepods"], 3⟩

/-- The pods `a` and `b`, each with its own directory. -/
def twoPods : CgroupTree where
  dirs := [⟨["kubepods"], 1⟩, dirA, dirB]
  usedIds := [1, 2, 3]
  known := by decide

def podA : Pod := { name := "web", ns := "default", uid := "a" }
def podB : Pod := { name := "db", ns := "default", uid := "b" }

end K8sSched.Agent.Host
