import K8sSched.Agent.ProcFiles

/-! # The two ways to the PIDs of a pod

`resolveViaCgroupV2` walks the pod's directory, `resolveViaProcScan` looks for the
UID in the cgroup files of all processes. UIDs have a fixed length, and only the
directories of pods have `pod` and a hex digit in their names. Then an occurrence
of a UID that begins with a hex digit is in the name of the pod's own directory,
above the process, and both ways find the same processes. -/

namespace K8sSched.Agent.PidResolvers

open K8sSched.Bpf.Params K8sSched.Agent.CgroupFs K8sSched.Agent.PodSubtrees
open K8sSched.Agent.Host (Proc ProcTable podMarkers)
open K8sSched.Agent.ProcFiles K8sSched.Lib.Substrings

/-! ## UIDs and names -/

/-- 36 hex digits and dashes. -/
def PodUID (uid : String) : Prop := uid.toList.length = 36 ∧ isUid uid

instance (uid : String) : Decidable (PodUID uid) := inferInstanceAs (Decidable (_ ∧ _))

def isHexDigit (c : Char) : Bool := isUidChar c && c ≠ '-'

/-- The name has `pod` and a hex digit in it. -/
def namesPod (name : String) : Bool :=
  name.toList.tails.any fun
    | 'p' :: 'o' :: 'd' :: c :: _ => isHexDigit c
    | _ => false

/-- Only the directories of pods have such names, and a pod has one directory. -/
structure PodNames (tree : CgroupTree) : Prop where
  named : ∀ name parent, name :: parent ∈ tree.paths → namesPod name →
    ∃ uid, PodUID uid ∧ name :: parent ∈ podCgroupDirCandidates uid
  single : ∀ uid, PodUID uid → ∀ dir ∈ podCgroupDirCandidates uid,
    ∀ dir' ∈ podCgroupDirCandidates uid, dir ∈ tree.paths → dir' ∈ tree.paths → dir = dir'

def StartsHex (uid : String) : Prop := ∃ c rest, uid.toList = c :: rest ∧ isHexDigit c

/-- The UID as it is, or as in the names of systemd slices. -/
def Spells (uid : String) (w : List Char) : Prop := w = uid.toList ∨ w = (systemdUID uid).toList

theorem mem_podMarkers {uid marker : String} :
    marker ∈ podMarkers uid ↔ ∃ w, Spells uid w ∧ marker.toList = 'p' :: 'o' :: 'd' :: w := by
  have hpod : ∀ s : String, ("pod" ++ s).toList = 'p' :: 'o' :: 'd' :: s.toList := fun s => by
    rw [String.toList_append]
    rfl
  have heither : marker ∈ podMarkers uid ↔
      marker = "pod" ++ uid ∨ marker = "pod" ++ systemdUID uid := by
    unfold podMarkers
    split
    · simp
    · next heq => simp [not_not.mp heq]
  rw [heither, ← String.toList_inj, ← String.toList_inj, hpod, hpod]
  constructor
  · rintro (h | h)
    · exact ⟨_, .inl rfl, h⟩
    · exact ⟨_, .inr rfl, h⟩
  · rintro ⟨w, rfl | rfl, h⟩
    · exact .inl h
    · exact .inr h

section Spells

variable {uid : String} {w : List Char}

theorem toList_systemdUID (uid : String) :
    (systemdUID uid).toList = uid.toList.map fun c => if c = '-' then '_' else c := by
  rw [systemdUID, String.toList_ofList]

theorem Spells.length (h : Spells uid w) : w.length = uid.toList.length := by
  rcases h with rfl | rfl
  · rfl
  · rw [toList_systemdUID, List.length_map]

/-- Both spellings become one with underscores. -/
theorem Spells.systemd (h : Spells uid w) :
    (w.map fun c => if c = '-' then '_' else c) = (systemdUID uid).toList := by
  rcases h with rfl | rfl
  · rw [toList_systemdUID]
  · rw [toList_systemdUID, List.map_map]
    refine List.map_congr_left fun c _ => ?_
    by_cases hc : c = '-'
    · simp [hc]
    · simp [hc]

theorem Spells.unique {uid' : String} (hu : isUid uid) (hu' : isUid uid') (h : Spells uid w)
    (h' : Spells uid' w) : uid = uid' :=
  systemdUID_injective hu hu' (String.toList_inj.mp (h.systemd.symm.trans h'.systemd))

theorem Spells.char (hu : isUid uid) (h : Spells uid w) {c : Char} (hc : c ∈ w) :
    isUidChar c ∨ c = '_' := by
  have hall : ∀ c ∈ uid.toList, isUidChar c := List.all_eq_true.mp hu
  rcases h with rfl | rfl
  · exact .inl (hall c hc)
  · rw [toList_systemdUID] at hc
    obtain ⟨c', hc', rfl⟩ := List.mem_map.mp hc
    by_cases hd : c' = '-'
    · exact .inr (if_pos hd)
    · rw [if_neg hd]
      exact .inl (hall c' hc')

theorem Spells.not_mem (hu : isUid uid) (h : Spells uid w) {c : Char}
    (hc : isUidChar c = false) (hc' : c ≠ '_') : c ∉ w := by
  intro hmem
  rcases h.char hu hmem with huid | hunder
  · rw [hc] at huid
    cases huid
  · exact hc' hunder

theorem Spells.startsHex (h : Spells uid w) (hhex : StartsHex uid) :
    ∃ c rest, w = c :: rest ∧ isHexDigit c := by
  obtain ⟨c, rest, huid, hc⟩ := hhex
  rcases h with rfl | rfl
  · exact ⟨c, rest, huid, hc⟩
  · have hdash : c ≠ '-' := by
      rintro rfl
      exact absurd hc (by decide)
    rw [toList_systemdUID, huid, List.map_cons, if_neg hdash]
    exact ⟨c, _, rfl, hc⟩

end Spells

/-! ## Markers in names -/

/-- The name of a pod's directory: its UID is behind the last `p`, and another
one is in `kubepods`. -/
theorem candidate_name {uid name : String} {parent : Path}
    (h : name :: parent ∈ podCgroupDirCandidates uid) :
    ∃ pre w suf, Spells uid w ∧ name.toList = pre ++ 'p' :: ('o' :: 'd' :: w ++ suf) ∧
      'p' ∉ suf ∧ (pre = [] ∨ ∃ rest, pre = "kube".toList ++ 'p' :: ('o' :: 'd' :: 's' :: rest) ∧
        'p' ∉ rest) := by
  simp only [podCgroupDirCandidates, List.mem_cons, List.cons.injEq, List.not_mem_nil,
    or_false] at h
  rcases h with ⟨rfl, -⟩ | ⟨rfl, -⟩ | ⟨rfl, -⟩ | ⟨rfl, -⟩ | ⟨rfl, -⟩ | ⟨rfl, -⟩
  · refine ⟨"kubepods-besteffort-".toList, _, ".slice".toList, .inr rfl, ?_, by decide,
      .inr ⟨"-besteffort-".toList, by decide, by decide⟩⟩
    simp
  · refine ⟨"kubepods-burstable-".toList, _, ".slice".toList, .inr rfl, ?_, by decide,
      .inr ⟨"-burstable-".toList, by decide, by decide⟩⟩
    simp
  · refine ⟨"kubepods-".toList, _, ".slice".toList, .inr rfl, ?_, by decide,
      .inr ⟨"-".toList, by decide, by decide⟩⟩
    simp
  · exact ⟨[], _, [], .inl rfl, by simp, by decide, .inl rfl⟩
  · exact ⟨[], _, [], .inl rfl, by simp, by decide, .inl rfl⟩
  · exact ⟨[], _, [], .inl rfl, by simp, by decide, .inl rfl⟩

/-- The name of a pod's directory has the marker of no other pod in it. -/
theorem marker_in_candidate {u v name : String} {parent : Path} (hu : PodUID u) (hv : PodUID v)
    (hhex : StartsHex u) (hdir : name :: parent ∈ podCgroupDirCandidates v) {m : List Char}
    (hm : Spells u m) (h : 'p' :: 'o' :: 'd' :: m <:+: name.toList) : u = v := by
  obtain ⟨pre, w, suf, hw, hname, hsuf, hpre⟩ := candidate_name hdir
  obtain ⟨s, t, hst⟩ := h
  have hlast : 'p' ∉ 'o' :: 'd' :: w ++ suf := by
    simp only [List.cons_append, List.mem_cons, List.mem_append, not_or]
    exact ⟨by decide, by decide, hw.not_mem hv.2 (by decide) (by decide), hsuf⟩
  have heq : s ++ 'p' :: ('o' :: 'd' :: m ++ t) = pre ++ 'p' :: ('o' :: 'd' :: w ++ suf) := by
    rw [← hname, ← hst]
    simp
  rcases append_cons_eq hlast heq with ⟨-, htail⟩ | ⟨c, hpre', htail⟩
  · -- the same place, and both are as long as a UID
    have hmw : m ++ t = w ++ suf := by simpa using htail
    have hlength : m.length = w.length := by rw [hm.length, hw.length, hu.1, hv.1]
    obtain ⟨rfl, -⟩ := List.append_inj hmw hlength
    exact hm.unique hu.2 hv.2 hw
  · -- in `kubepods`, where an `s` follows
    rcases hpre with rfl | ⟨rest, hkube, hrest⟩
    · simp at hpre'
    · have hods : 'p' ∉ 'o' :: 'd' :: 's' :: rest := by
        simp only [List.mem_cons, not_or]
        exact ⟨by decide, by decide, by decide, hrest⟩
      rcases append_cons_eq hods (hpre'.symm.trans hkube) with ⟨-, rfl⟩ | ⟨d, hd, -⟩
      · obtain ⟨c, m, rfl, hc⟩ := hm.startsHex hhex
        have hs : c = 's' := by
          simp only [List.cons_append, List.cons.injEq, true_and] at htail
          exact htail.1
        rw [hs] at hc
        exact absurd hc (by decide)
      · have hmem : 'p' ∈ "kube".toList := by
          rw [hd]
          simp
        exact absurd hmem (by decide)

theorem namesPod_of_marker {name : String} {c : Char} {m : List Char} (hc : isHexDigit c)
    (h : 'p' :: 'o' :: 'd' :: c :: m <:+: name.toList) : namesPod name := by
  obtain ⟨t, hprefix, hsuffix⟩ := List.infix_iff_prefix_suffix.mp h
  obtain ⟨rest, rfl⟩ := hprefix
  exact List.any_eq_true.mpr ⟨_, (List.mem_tails _ _).mpr hsuffix, hc⟩

/-! ## Markers in cgroup files -/

theorem toList_cgroupFile (p : Proc) :
    p.cgroupFile.toList = "0::".toList ++
      '/' :: (['/'].intercalate (p.cgroup.path.reverse.map String.toList) ++ '\n' :: []) := by
  simp only [Proc.cgroupFile, String.toList_append, String.toList_intercalate]
  simp

/-- A marker is in the cgroup file of a process if it is in the name of its
directory or of one above. -/
theorem marker_in_cgroupFile {uid : String} (hu : isUid uid) {m : List Char} (hm : Spells uid m)
    (p : Proc) : 'p' :: 'o' :: 'd' :: m <:+: p.cgroupFile.toList ↔
      ∃ name ∈ p.cgroup.path, 'p' :: 'o' :: 'd' :: m <:+: name.toList := by
  have hnot : ∀ c, isUidChar c = false → c ≠ '_' → c ∉ ['p', 'o', 'd'] →
      c ∉ 'p' :: 'o' :: 'd' :: m := by
    intro c hc hc' hpod hmem
    simp only [List.mem_cons, List.not_mem_nil, or_false] at hmem hpod
    rcases hmem with h | h | h | h
    · exact hpod (.inl h)
    · exact hpod (.inr (.inl h))
    · exact hpod (.inr (.inr h))
    · exact hm.not_mem hu hc hc' h
  rw [toList_cgroupFile]
  constructor
  · intro h
    rcases infix_or_infix (hnot '/' (by decide) (by decide) (by decide)) h with h | h
    · exact absurd (h.subset List.mem_cons_self) (by decide)
    rcases infix_or_infix (hnot '\n' (by decide) (by decide) (by decide)) h with h | h
    · obtain ⟨l, hl, h⟩ := exists_infix_of_intercalate
        (hnot '/' (by decide) (by decide) (by decide)) (by simp) h
      obtain ⟨name, hname, rfl⟩ := List.mem_map.mp hl
      exact ⟨name, List.mem_reverse.mp hname, h⟩
    · exact absurd (List.infix_nil.mp h) (by simp)
  · rintro ⟨name, hname, h⟩
    have hjoined := infix_intercalate ['/']
      (List.mem_map_of_mem (f := String.toList) (List.mem_reverse.mpr hname))
    exact h.trans (hjoined.trans ⟨"0::/".toList, ['\n'], by simp⟩)

/-! ## Directories above a process -/

theorem walks_of_suffix {root path : Path} (hroot : root ≠ []) (h : root <:+ path) :
    walks {} root path := by
  induction path with
  | nil => exact absurd (List.suffix_nil.mp h) hroot
  | cons name parent ih =>
    unfold walks
    split
    · simp
    · next hne =>
      rcases List.suffix_cons_iff.mp h with heq | h
      · exact absurd heq.symm hne
      · simp [ih h]

variable {s : Snapshot} {uid : String} {pid : U32}

/-- The directories above one that exists do. -/
theorem mem_paths_of_suffix {path dir : Path} (hpath : path ∈ s.tree.paths) (hdir : dir ≠ [])
    (h : dir <:+ path) : dir ∈ s.tree.paths := by
  induction path with
  | nil => exact absurd (List.suffix_nil.mp h) hdir
  | cons name parent ih =>
    rcases List.suffix_cons_iff.mp h with rfl | h
    · exact hpath
    · rcases s.parents name parent hpath with rfl | hparent
      · exact absurd (List.suffix_nil.mp h) hdir
      · exact ih hparent h

theorem findPodCgroupDir_eq (hnames : PodNames s.tree) (huid : PodUID uid) {dir : Path}
    (hdir : dir ∈ podCgroupDirCandidates uid) (hmem : dir ∈ s.tree.paths) :
    findPodCgroupDir s.tree {} uid = some dir := by
  cases hfind : findPodCgroupDir s.tree {} uid with
  | none =>
    have := List.find?_eq_none.mp hfind dir hdir
    simp [hmem] at this
  | some dir' =>
    have hdir' := findPodCgroupDir_mem hfind
    have hmem' : dir' ∈ s.tree.paths := by
      have := List.find?_some hfind
      simp only [List.not_mem_nil, not_false_eq_true, and_true, decide_eq_true_eq] at this
      exact this
    rw [hnames.single uid huid dir' hdir' dir hdir hmem' hmem]

/-- A marker in the name of a directory above a process is in that of the pod's
directory. -/
theorem scanned_walked (hnames : PodNames s.tree) (huid : PodUID uid) (hhex : StartsHex uid)
    (h : pid ∈ s.viaProcScan uid) : pid ∈ s.viaCgroupV2 uid := by
  obtain ⟨p, hp, marker, hmarker, hinfix⟩ := Snapshot.mem_viaProcScan.mp h
  obtain ⟨m, hm, hlist⟩ := mem_podMarkers.mp hmarker
  rw [hlist, marker_in_cgroupFile huid.2 hm] at hinfix
  obtain ⟨name, hname, hinfix⟩ := hinfix
  obtain ⟨below, parent, hpath⟩ := List.append_of_mem hname
  have hsuffix : name :: parent <:+ p.cgroup.path := ⟨below, hpath.symm⟩
  have hplaced : p.cgroup.path ∈ s.tree.paths := by
    refine (s.placed pid p hp).resolve_left fun hroot => ?_
    rw [hroot] at hname
    cases hname
  have hdir : name :: parent ∈ s.tree.paths := mem_paths_of_suffix hplaced (by simp) hsuffix
  obtain ⟨c, rest, hc, hcHex⟩ := hm.startsHex hhex
  obtain ⟨v, hv, hcandidate⟩ := hnames.named name parent hdir
    (namesPod_of_marker hcHex (by rwa [hc] at hinfix))
  have huv : uid = v := marker_in_candidate huid hv hhex hcandidate hm hinfix
  rw [← huv] at hcandidate
  exact Snapshot.mem_viaCgroupV2.mpr ⟨name :: parent,
    findPodCgroupDir_eq hnames huid hcandidate hdir, p, hp,
    walks_of_suffix (by simp) hsuffix⟩

/-- A process below the pod's directory has the directory's name in its cgroup
file. -/
theorem walked_scanned (huid : PodUID uid) (h : pid ∈ s.viaCgroupV2 uid) :
    pid ∈ s.viaProcScan uid := by
  obtain ⟨dir, hfind, p, hp, hwalk⟩ := Snapshot.mem_viaCgroupV2.mp h
  have hdir := findPodCgroupDir_mem hfind
  cases dir with
  | nil => simp [podCgroupDirCandidates] at hdir
  | cons name parent =>
    obtain ⟨pre, w, suf, hw, hname, -⟩ := candidate_name hdir
    have hinfix : 'p' :: 'o' :: 'd' :: w <:+: name.toList := ⟨pre, suf, by rw [hname]; simp⟩
    have hmem : name ∈ p.cgroup.path := (walks_suffix hwalk).subset List.mem_cons_self
    have hmarker : String.ofList ('p' :: 'o' :: 'd' :: w) ∈ podMarkers uid :=
      mem_podMarkers.mpr ⟨w, hw, String.toList_ofList⟩
    refine Snapshot.mem_viaProcScan.mpr ⟨p, hp, _, hmarker, ?_⟩
    rw [String.toList_ofList]
    exact (marker_in_cgroupFile huid.2 hw p).mpr ⟨name, hmem, hinfix⟩

theorem inSubtree_of_walked (h : pid ∈ s.viaCgroupV2 uid) :
    ∃ p, s.procs.lookup pid = some p ∧ inSubtree uid p.cgroup.path := by
  obtain ⟨dir, hfind, p, hp, hwalk⟩ := Snapshot.mem_viaCgroupV2.mp h
  exact ⟨p, hp, inSubtree_iff.mpr ⟨dir, findPodCgroupDir_mem hfind, walks_suffix hwalk⟩⟩

/-- The two ways return the same PIDs for every pod, whose UID begins with a hex
digit, and no PID for two pods. -/
theorem resolvers_agree (s : Snapshot) (hnames : PodNames s.tree) {uid : String}
    (huid : PodUID uid) (hhex : StartsHex uid) :
    (s.viaProcScan uid).toFinset = (s.viaCgroupV2 uid).toFinset ∧
      ∀ uid', PodUID uid' → StartsHex uid' → uid' ≠ uid →
        Disjoint (s.viaProcScan uid).toFinset (s.viaProcScan uid').toFinset ∧
        Disjoint (s.viaCgroupV2 uid).toFinset (s.viaCgroupV2 uid').toFinset := by
  have hagree : ∀ {uid}, PodUID uid → StartsHex uid →
      (s.viaProcScan uid).toFinset = (s.viaCgroupV2 uid).toFinset := by
    intro uid huid hhex
    ext pid
    rw [List.mem_toFinset, List.mem_toFinset]
    exact ⟨scanned_walked hnames huid hhex, walked_scanned huid⟩
  refine ⟨hagree huid hhex, fun uid' huid' hhex' hne => ?_⟩
  rw [hagree huid hhex, hagree huid' hhex', and_self, Finset.disjoint_left]
  intro pid hpid hpid'
  obtain ⟨p, hp, hsub⟩ := inSubtree_of_walked (List.mem_toFinset.mp hpid)
  obtain ⟨p', hp', hsub'⟩ := inSubtree_of_walked (List.mem_toFinset.mp hpid')
  rw [hp] at hp'
  cases hp'
  exact hne (subtree_unique huid'.2 huid.2 hsub' hsub)

/-! ## Some processes -/

/-- A process table without containers, by the directory of each PID. -/
def tableOf (ps : List (U32 × Dir)) : ProcTable :=
  (ps.map fun p => (⟨p.1, ⟨none, p.2⟩⟩ : Sigma fun _ : U32 => Proc)).toFinmap

theorem lookup_tableOf {ps : List (U32 × Dir)} (hnodup : (ps.map Prod.fst).Nodup) {pid : U32}
    {p : Proc} : (tableOf ps).lookup pid = some p ↔ ∃ dir, (pid, dir) ∈ ps ∧ p = ⟨none, dir⟩ := by
  have hkeys : (ps.map fun p => (⟨p.1, ⟨none, p.2⟩⟩ : Sigma fun _ : U32 => Proc)).NodupKeys := by
    rw [List.NodupKeys, List.keys, List.map_map]
    exact hnodup
  rw [tableOf, Finmap.dlookup_list_toFinmap, ← Option.mem_def, List.mem_dlookup_iff hkeys,
    List.mem_map]
  constructor
  · intro h
    obtain ⟨⟨_, dir⟩, hmem, heq⟩ := h
    cases heq
    exact ⟨dir, hmem, rfl⟩
  · intro h
    obtain ⟨dir, hmem, rfl⟩ := h
    exact ⟨(pid, dir), hmem, rfl⟩

/-- A node with these processes. -/
def snapshotOf (tree : CgroupTree) (ps : List (U32 × Dir)) (hnodup : (ps.map Prod.fst).Nodup)
    (hps : ∀ p ∈ ps, p.1.toNat < 2 ^ 31 ∧ p.2 ∈ tree.dirs)
    (parents : ∀ name parent, name :: parent ∈ tree.paths → parent = [] ∨ parent ∈ tree.paths) :
    Snapshot where
  tree := tree
  procs := tableOf ps
  procsFile := fun path => some (procsContent ((ps.filter fun p => p.2.path = path).map Prod.fst))
  entries := (ps.map fun p => ⟨toString p.1.toNat, true, some (Proc.cgroupFile ⟨none, p.2⟩)⟩) ++
    [⟨"self", false, none⟩, ⟨"sys", true, none⟩]
  pid_lt := by
    intro pid hpid
    obtain ⟨p, hp⟩ := Finmap.mem_iff.mp hpid
    obtain ⟨dir, hmem, -⟩ := (lookup_tableOf hnodup).mp hp
    exact (hps _ hmem).1
  placed := by
    intro pid p hp
    obtain ⟨dir, hmem, rfl⟩ := (lookup_tableOf hnodup).mp hp
    exact .inr (List.mem_map_of_mem (hps _ hmem).2)
  parents := parents
  listed := by
    intro path _
    refine ⟨_, rfl, fun pid => ?_⟩
    simp only [List.mem_map, List.mem_filter, decide_eq_true_eq, lookup_tableOf hnodup]
    constructor
    · intro h
      obtain ⟨⟨_, dir⟩, ⟨hmem, hpath⟩, rfl⟩ := h
      exact ⟨_, ⟨dir, hmem, rfl⟩, hpath⟩
    · intro h
      obtain ⟨_, ⟨dir, hmem, rfl⟩, hpath⟩ := h
      exact ⟨(pid, dir), ⟨hmem, hpath⟩, rfl⟩
  shown := by
    intro pid p hp
    obtain ⟨dir, hmem, rfl⟩ := (lookup_tableOf hnodup).mp hp
    exact List.mem_append_left _ (List.mem_map.mpr ⟨(pid, dir), hmem, rfl⟩)
  fresh := by
    intro entry hentry hdir hname
    rcases List.mem_append.mp hentry with hentry | hentry
    · obtain ⟨⟨pid, dir⟩, hmem, rfl⟩ := List.mem_map.mp hentry
      exact ⟨pid, _, (lookup_tableOf hnodup).mpr ⟨dir, hmem, rfl⟩, rfl⟩
    · rcases List.mem_pair.mp hentry with rfl | rfl
      · cases hdir
      · exact absurd hname (by decide)

def kubepods : Dir := ⟨["kubepods"], 1⟩

/-- The directory of a pod of the cgroupfs driver. -/
def podDir (uid : String) (id : U64) : Dir := ⟨["pod" ++ uid, "kubepods"], id⟩

/-- The directories of some pods, and others. -/
def podTree (pods : List (String × U64)) (others : List Dir) : CgroupTree where
  dirs := kubepods :: (pods.map fun p => podDir p.1 p.2) ++ others
  usedIds := (kubepods :: (pods.map fun p => podDir p.1 p.2) ++ others).map Dir.id
  known := fun _ hd => List.mem_map_of_mem hd

section Tree

variable {pods : List (String × U64)} {others : List Dir}

theorem mem_podTree {path : Path} : path ∈ (podTree pods others).paths ↔
    path = ["kubepods"] ∨ (∃ p ∈ pods, path = ["pod" ++ p.1, "kubepods"]) ∨
      ∃ d ∈ others, path = d.path := by
  simp [CgroupTree.paths, podTree, kubepods, podDir, eq_comm]

theorem podTree_parents
    (hothers : ∀ d ∈ others, d.path.tail = [] ∨ d.path.tail ∈ (podTree pods others).paths)
    {name : String} {parent : Path} (h : name :: parent ∈ (podTree pods others).paths) :
    parent = [] ∨ parent ∈ (podTree pods others).paths := by
  rcases mem_podTree.mp h with heq | ⟨p, -, heq⟩ | ⟨d, hd, heq⟩
  · exact .inl (List.cons.inj heq).2
  · rw [(List.cons.inj heq).2]
    exact .inr (mem_podTree.mpr (.inl rfl))
  · simpa [← heq] using hothers d hd

/-- The other directories are no pod's, by their names or by their place. -/
theorem podTree_names (hpods : ∀ p ∈ pods, PodUID p.1)
    (hothers : ∀ d ∈ others, (d.path.head?.any namesPod) = false ∧
      ∀ v, d.path ∉ podCgroupDirCandidates v) : PodNames (podTree pods others) where
  named := by
    intro name parent hmem hname
    rcases mem_podTree.mp hmem with heq | ⟨p, hp, heq⟩ | ⟨d, hd, heq⟩
    · cases heq
      exact absurd hname (by decide)
    · rw [heq]
      exact ⟨p.1, hpods p hp, by simp [podCgroupDirCandidates]⟩
    · have hnot := (hothers d hd).1
      rw [← heq, List.head?_cons, Option.any_some, hname] at hnot
      cases hnot
  single := by
    have hdir : ∀ v, ∀ dir ∈ podCgroupDirCandidates v, dir ∈ (podTree pods others).paths →
        dir = ["pod" ++ v, "kubepods"] := by
      intro v dir hdir hmem
      rcases mem_podTree.mp hmem with rfl | ⟨p, -, rfl⟩ | ⟨d, hd, rfl⟩
      · simp [podCgroupDirCandidates] at hdir
      · simpa [podCgroupDirCandidates] using hdir
      · exact absurd hdir ((hothers d hd).2 v)
    intro v _ dir hd dir' hd' hmem hmem'
    rw [hdir v dir hd hmem, hdir v dir' hd' hmem']

end Tree

def webUID : String := "6f1c2a44-9d3e-4b7a-8a51-0c2e9b7d4f10"

def dbUID : String := "0b6e11d2-53aa-4c0f-9e7b-7d1f5a2c8e66"

def systemSlice : Dir := ⟨["system.slice"], 4⟩

/-- A container of the pod. -/
def webContainer : Dir := ⟨["c1", "pod" ++ webUID, "kubepods"], 5⟩

/-- Two pods and a service, one of the pods with a container. -/
def webSnapshot : Snapshot :=
  snapshotOf (podTree [(webUID, 2), (dbUID, 3)] [systemSlice, webContainer])
    [(1, systemSlice), (7, podDir webUID 2), (9, podDir dbUID 3), (12, webContainer)] (by decide)
    (by simp [podTree]) fun _ _ => podTree_parents (by decide)

theorem resolvers_agree_web :
    (webSnapshot.viaProcScan webUID).toFinset = (webSnapshot.viaCgroupV2 webUID).toFinset ∧
      webSnapshot.viaProcScan webUID = [7, 12] ∧ webSnapshot.viaProcScan dbUID = [9] ∧
      Disjoint (webSnapshot.viaProcScan webUID).toFinset
        (webSnapshot.viaProcScan dbUID).toFinset := by
  have hnames : PodNames webSnapshot.tree := by
    refine podTree_names (by decide) fun d hd => ?_
    rcases List.mem_pair.mp hd with rfl | rfl
    · exact ⟨by decide, fun v => by simp [systemSlice, podCgroupDirCandidates]⟩
    · refine ⟨by decide, fun v => ?_⟩
      simp [webContainer, podCgroupDirCandidates, podDir_ne]
  obtain ⟨hagree, hother⟩ := resolvers_agree webSnapshot hnames
    (by decide : PodUID webUID) ⟨'6', _, rfl, rfl⟩
  exact ⟨hagree, by decide, by decide,
    (hother dbUID (by decide) ⟨'0', _, rfl, rfl⟩ (by decide)).1⟩

/-- 36 hex digits and dashes that begin with a dash. -/
def dashUID : String := "-0000000-0000-0000-0000-000000000000"

def dashLike : Dir := ⟨["my-pod" ++ dashUID], 3⟩

/-- The process is in a directory whose name ends like that of the pod. -/
def dashSnapshot : Snapshot :=
  snapshotOf (podTree [(dashUID, 2)] [dashLike]) [(7, dashLike)] (by decide)
    (by simp [podTree]) fun _ _ => podTree_parents (by decide)

/-- No name but the pod's has `pod` and a hex digit in it, and yet the scan finds
a process outside the pod's directory. -/
theorem dash_scanned :
    PodNames dashSnapshot.tree ∧ PodUID dashUID ∧
      (podDir dashUID 2).path ∈ dashSnapshot.tree.paths ∧
      dashSnapshot.viaProcScan dashUID = [7] ∧ dashSnapshot.viaCgroupV2 dashUID = [] := by
  refine ⟨podTree_names (by decide) fun d hd => ?_, by decide, ?_, by decide, by decide⟩
  · rw [List.mem_singleton.mp hd]
    exact ⟨by decide, fun v => by simp [dashLike, podCgroupDirCandidates]⟩
  · exact mem_podTree.mpr (.inr (.inl ⟨(dashUID, 2), List.mem_singleton_self _, rfl⟩))

end K8sSched.Agent.PidResolvers
