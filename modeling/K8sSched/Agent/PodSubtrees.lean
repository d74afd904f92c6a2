import K8sSched.Agent.CgroupFs

/-! # The cgroup subtrees of pods

Which directories belong to a pod, by the six places its own directory can be.
UIDs are hex digits and dashes, so the rewriting of dashes for systemd loses
nothing, and no place of one pod is at or above a place of another: the subtrees
of two pods have no directory in common, and what is resolved for a pod lies in
its subtree. -/

namespace K8sSched.Agent.PodSubtrees

open K8sSched.Bpf.Params K8sSched.Agent.CgroupFs

/-- The characters of the API server's UIDs. -/
def isUidChar (c : Char) : Bool :=
  c.isDigit || ('a' ≤ c && c ≤ 'f') || ('A' ≤ c && c ≤ 'F') || c = '-'

def isUid (uid : String) : Bool := uid.toList.all isUidChar

/-- At or below one of the places of the pod's directory. -/
def inSubtree (uid : String) (path : Path) : Bool :=
  (podCgroupDirCandidates uid).any fun dir => dir.isSuffixOf path

theorem inSubtree_iff {uid : String} {path : Path} :
    inSubtree uid path ↔ ∃ dir ∈ podCgroupDirCandidates uid, dir <:+ path := by
  simp [inSubtree]

/-! ## Names -/

theorem underscore_not_mem {uid : String} (h : isUid uid) : '_' ∉ uid.toList := by
  intro hmem
  have := List.all_eq_true.mp h '_' hmem
  exact absurd this (by decide)

theorem map_dash_injective {l l' : List Char} (hl : '_' ∉ l) (hl' : '_' ∉ l')
    (h : l.map (fun c => if c = '-' then '_' else c) =
      l'.map fun c => if c = '-' then '_' else c) : l = l' := by
  induction l generalizing l' with
  | nil => simpa using h.symm
  | cons c l ih =>
    cases l' with
    | nil => cases h
    | cons c' l' =>
      simp only [List.mem_cons, not_or] at hl hl'
      obtain ⟨hc, hrest⟩ := List.cons.inj h
      change (if c = '-' then '_' else c) = if c' = '-' then '_' else c' at hc
      have heq : c = c' := by
        by_cases hd : c = '-'
        · by_cases hd' : c' = '-'
          · rw [hd, hd']
          · rw [if_pos hd, if_neg hd'] at hc
            exact absurd hc hl'.1
        · by_cases hd' : c' = '-'
          · rw [if_neg hd, if_pos hd'] at hc
            exact absurd hc.symm hl.1
          · rwa [if_neg hd, if_neg hd'] at hc
      rw [heq, ih hl.2 hl'.2 hrest]

theorem systemdUID_injective {u v : String} (hu : isUid u) (hv : isUid v)
    (h : systemdUID u = systemdUID v) : u = v := by
  have hlist := congrArg String.toList h
  simp only [systemdUID, String.toList_ofList] at hlist
  exact String.toList_inj.mp
    (map_dash_injective (underscore_not_mem hu) (underscore_not_mem hv) hlist)

/-- The slice of a Guaranteed pod is not that of a QoS class. -/
theorem podSlice_ne (s : String) :
    "kubepods-pod" ++ s ++ ".slice" ≠ "kubepods-besteffort.slice" ∧
      "kubepods-pod" ++ s ++ ".slice" ≠ "kubepods-burstable.slice" := by
  constructor
  · intro h
    have hlist := congrArg String.toList h
    simp at hlist
  · intro h
    have hlist := congrArg String.toList h
    simp at hlist

theorem podDir_ne (s : String) : "pod" ++ s ≠ "besteffort" ∧ "pod" ++ s ≠ "burstable" := by
  constructor
  · intro h
    have hlist := congrArg String.toList h
    simp at hlist
  · intro h
    have hlist := congrArg String.toList h
    simp at hlist

theorem candidate_suffix {u v : String} (hu : isUid u) (hv : isUid v) {c d : Path}
    (hc : c ∈ podCgroupDirCandidates u) (hd : d ∈ podCgroupDirCandidates v) (h : c <:+ d) :
    u = v := by
  simp only [podCgroupDirCandidates, List.mem_cons, List.not_mem_nil, or_false] at hc hd
  rcases hc with rfl | rfl | rfl | rfl | rfl | rfl <;>
    rcases hd with rfl | rfl | rfl | rfl | rfl | rfl <;>
    simp [List.suffix_cons_iff, podSlice_ne, podDir_ne] at h <;>
    first | exact h | exact systemdUID_injective hu hv h

/-- A directory is in the subtree of one pod only. -/
theorem subtree_unique {u v : String} (hu : isUid u) (hv : isUid v) {path : Path}
    (h : inSubtree u path) (h' : inSubtree v path) : u = v := by
  obtain ⟨c, hc, hcp⟩ := inSubtree_iff.mp h
  obtain ⟨d, hd, hdp⟩ := inSubtree_iff.mp h'
  rcases List.suffix_or_suffix_of_suffix hcp hdp with hs | hs
  · exact candidate_suffix hu hv hc hd hs
  · exact (candidate_suffix hv hu hd hc hs).symm

theorem candidate_root {uid : String} {dir : Path} (h : dir ∈ podCgroupDirCandidates uid) :
    ∃ root ∈ kubepodsRoots, root <:+ dir := by
  simp only [podCgroupDirCandidates, List.mem_cons, List.not_mem_nil, or_false] at h
  rcases h with rfl | rfl | rfl | rfl | rfl | rfl <;> simp [kubepodsRoots, List.suffix_cons_iff]

theorem subtree_underKubepods {uid : String} {path : Path} (h : inSubtree uid path) :
    underKubepods path = true := by
  obtain ⟨dir, hdir, hsuffix⟩ := inSubtree_iff.mp h
  obtain ⟨root, hroot, hdir⟩ := candidate_root hdir
  exact List.any_eq_true.mpr ⟨root, hroot, List.isSuffixOf_iff_suffix.mpr (hdir.trans hsuffix)⟩

/-! ## Resolved IDs -/

theorem walks_suffix {f : Faults} {root path : Path} (h : walks f root path) : root <:+ path := by
  induction path with
  | nil => cases h
  | cons name parent ih =>
    unfold walks at h
    split at h
    · next heq => exact ⟨[], heq.symm⟩
    · have hparent := (Bool.and_eq_true _ _ ▸ h).1
      exact (ih hparent).trans (List.suffix_cons name parent)

theorem findPodCgroupDir_mem {tree : CgroupTree} {f : Faults} {uid : String} {dir : Path}
    (h : findPodCgroupDir tree f uid = some dir) : dir ∈ podCgroupDirCandidates uid :=
  List.mem_of_find?_eq_some h

/-- What is resolved for a pod are IDs of directories in its subtree. -/
theorem resolved_in_subtree {tree : CgroupTree} {f : Faults} {uid : String} {id : U64}
    (h : id ∈ resolvePodCgroupIDs tree f uid) :
    ∃ d ∈ tree.dirs, d.id = id ∧ inSubtree uid d.path := by
  unfold resolvePodCgroupIDs at h
  split at h
  · cases h
  · split at h
    · cases h
    · next dir hfind =>
      obtain ⟨d, hd, rfl⟩ := List.mem_map.mp h
      obtain ⟨hmem, hwalk⟩ := List.mem_filter.mp hd
      refine ⟨d, hmem, rfl, inSubtree_iff.mpr ⟨dir, findPodCgroupDir_mem hfind, ?_⟩⟩
      exact walks_suffix (Bool.and_eq_true _ _ ▸ hwalk).1

end K8sSched.Agent.PodSubtrees
