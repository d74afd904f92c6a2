import K8sSched.Agent.Host

/-! # Whose parameters a process runs with

A cgroup ID belongs to one pod for good, a PID does not. The entries the
fallback path leaves in `task_params` go by PIDs alone, and the scheduler looks
there first: a process of another pod that gets the PID runs with them. All
states a run leads through are free of that exactly when no process starts under
a PID with somebody else's entry and no fallback update writes a PID that has
gone to another pod since it was resolved. -/

namespace K8sSched.Agent.PidReuse

open K8sSched.Bpf.Params K8sSched.Agent.Pods K8sSched.Agent.MapOps K8sSched.Agent.CgroupFs
open K8sSched.Agent.PodSubtrees K8sSched.Agent.Host K8sSched.Lib.GoMap K8sSched.Lib.Runs

section

variable (taskParamsOpen cgroupParamsOpen : Bool)

/-- A call of `UpdatePodParams` for the pod wrote these parameters. -/
def Wrote (uid : String) (tp : TaskParams) : Event → Prop
  | .updated c _ => c.pod.uid = uid ∧ c.params = tp ∧
      (cgroupKeys taskParamsOpen cgroupParamsOpen c ≠ [] ∨
        pidKeys taskParamsOpen cgroupParamsOpen c ≠ [])
  | .removed _ => False

instance (uid : String) (tp : TaskParams) (e : Event) :
    Decidable (Wrote taskParamsOpen cgroupParamsOpen uid tp e) := by
  unfold Wrote
  split <;> infer_instance

/-- The defaults, or what a call wrote for the pod. -/
def Given (log : List Event) (uid : String) (tp : TaskParams) : Prop :=
  tp = ⟨Bpf.Params.defaultWeight, 0⟩ ∨
    ∃ e ∈ log, Wrote taskParamsOpen cgroupParamsOpen uid tp e

instance (log : List Event) (uid : String) (tp : TaskParams) :
    Decidable (Given taskParamsOpen cgroupParamsOpen log uid tp) :=
  inferInstanceAs (Decidable (_ ∨ _))

/-- Every process of a pod is scheduled with the defaults or its own pod's
parameters. -/
def OwnParams (x : Node × List Event) : Prop :=
  ∀ pid p uid, x.1.procs.lookup pid = some p → p.pod = some uid →
    Given taskParamsOpen cgroupParamsOpen x.2 uid
      (lookupTaskParams x.1.maps.kernel (taskOf pid p)).2

/-- A PID with an entry goes to a process of a pod the entry suits, and an update
writes PIDs of processes it suits. -/
def Clean (x : Node × List Event) : Action → Prop
  | .start pid pod _ => ∀ uid ∈ pod, ∀ tp ∈ x.1.maps.kernel.taskParams.lookup pid,
      Given taskParamsOpen cgroupParamsOpen x.2 uid tp
  | .write =>
    match x.1.call with
    | some (.update c) => ∀ pid ∈ pidKeys taskParamsOpen cgroupParamsOpen c,
        ∀ p ∈ x.1.procs.lookup pid, ∀ uid ∈ p.pod,
          uid = c.pod.uid ∨ Given taskParamsOpen cgroupParamsOpen x.2 uid c.params
    | _ => True
  | _ => True

instance (x : Node × List Event) (a : Action) :
    Decidable (Clean taskParamsOpen cgroupParamsOpen x a) := by
  unfold Clean
  split
  · infer_instance
  · split
    · exact List.decidableBAll _ _
    · infer_instance
  · infer_instance

/-! ## What holds in any case -/

/-- Entries by cgroup ID are in the subtree of a pod they were written for. -/
structure Inv (x : Node × List Event) : Prop where
  wf : Wf x.1
  task : x.1.maps.taskParamsOpen = taskParamsOpen
  cgroup : x.1.maps.cgroupParamsOpen = cgroupParamsOpen
  entries : ∀ id tp, x.1.maps.kernel.cgroupParams.lookup id = some tp →
    ∃ uid, isUid uid ∧ Owned x.1.created uid id ∧
      Given taskParamsOpen cgroupParamsOpen x.2 uid tp

/-- Entries by PID suit the process that has the PID. -/
def OwnEntries (x : Node × List Event) : Prop :=
  ∀ pid p uid tp, x.1.procs.lookup pid = some p → p.pod = some uid →
    x.1.maps.kernel.taskParams.lookup pid = some tp →
    Given taskParamsOpen cgroupParamsOpen x.2 uid tp

end

variable {taskParamsOpen cgroupParamsOpen : Bool} {s t : Node} {log es : List Event} {a : Action}

theorem Given.append {uid : String} {tp : TaskParams}
    (h : Given taskParamsOpen cgroupParamsOpen log uid tp) (es : List Event) :
    Given taskParamsOpen cgroupParamsOpen (log ++ es) uid tp := by
  rcases h with h | ⟨e, he, hw⟩
  · exact .inl h
  · exact .inr ⟨e, List.mem_append_left es he, hw⟩

theorem boot_inv {tree : CgroupTree} (hids : (tree.dirs.map Dir.id).Nodup) :
    Inv taskParamsOpen cgroupParamsOpen
      (boot tree ⟨∅, ∅⟩ taskParamsOpen cgroupParamsOpen, []) where
  wf := boot_wf hids _ _ _
  task := rfl
  cgroup := rfl
  entries := by
    intro id tp h
    cases h

/-- What a call leaves under a cgroup ID it has written or was there before. -/
theorem lookup_apply_cases {m : Maps} {x : Call} {id : U64} {tp : TaskParams}
    (h : (x.apply m).kernel.cgroupParams.lookup id = some tp) :
    m.kernel.cgroupParams.lookup id = some tp ∨
      ∃ c, x = .update c ∧ c.params = tp ∧
        id ∈ cgroupKeys m.taskParamsOpen m.cgroupParamsOpen c := by
  rw [lookup_apply] at h
  cases x with
  | update c =>
    simp only [Call.effect] at h
    split at h
    · next hid => exact .inr ⟨c, rfl, Option.some.inj h, hid⟩
    · exact .inl h
  | remove r =>
    simp only [Call.effect] at h
    split at h
    · cases h
    · exact .inl h

theorem Inv.apply (h : Inv taskParamsOpen cgroupParamsOpen (s, log)) {x : Call}
    (hcall : s.call = some x) (hes : ∀ c, x = .update c → ∃ err, es = [.updated c err]) {id : U64}
    {tp : TaskParams} (hid : (x.apply s.maps).kernel.cgroupParams.lookup id = some tp) :
    ∃ uid, isUid uid ∧ Owned s.created uid id ∧
      Given taskParamsOpen cgroupParamsOpen (log ++ es) uid tp := by
  rcases lookup_apply_cases hid with hold | ⟨c, rfl, rfl, hkey⟩
  · obtain ⟨uid, huid, howned, hgiven⟩ := h.entries id tp hold
    exact ⟨uid, huid, howned, hgiven.append es⟩
  · obtain ⟨huid, howned⟩ := h.wf.call _ hcall
    obtain ⟨err, rfl⟩ := hes c rfl
    rw [h.task, h.cgroup] at hkey
    refine ⟨c.pod.uid, huid, howned id (cgroupKeys_subset _ _ c id hkey), .inr ?_⟩
    exact ⟨.updated c err, by simp, rfl, rfl, .inl (List.ne_nil_of_mem hkey)⟩

theorem Inv.step (h : Inv taskParamsOpen cgroupParamsOpen (s, log))
    (hs : Does s a t es) : Inv taskParamsOpen cgroupParamsOpen (t, log ++ es) := by
  have hwf := h.wf.step hs
  cases hs with
  | mkdir =>
    refine { h with wf := hwf, entries := fun id tp hid => ?_ }
    obtain ⟨uid, huid, howned, hgiven⟩ := h.entries id tp hid
    exact ⟨uid, huid, howned.mono fun d hd => List.mem_cons_of_mem _ hd, hgiven.append []⟩
  | @update c hcall =>
    obtain ⟨htask, hcgroup⟩ := apply_open s.maps (.update c)
    refine ⟨hwf, htask.trans h.task, hcgroup.trans h.cgroup, fun id tp hid => ?_⟩
    exact h.apply hcall (fun c' hc' => by cases hc'; exact ⟨_, rfl⟩) hid
  | @remove r hcall =>
    obtain ⟨htask, hcgroup⟩ := apply_open s.maps (.remove r)
    refine ⟨hwf, htask.trans h.task, hcgroup.trans h.cgroup, fun id tp hid => ?_⟩
    exact h.apply hcall (fun c' hc' => by cases hc') hid
  | @deleteCgroupID id' ok =>
    refine { h with wf := hwf, entries := fun id tp hid => ?_ }
    obtain ⟨uid, huid, howned, hgiven⟩ := h.entries id tp (lookup_deleteIf hid)
    exact ⟨uid, huid, howned, hgiven.append []⟩
  | _ =>
    refine { h with wf := hwf, entries := fun id tp hid => ?_ }
    obtain ⟨uid, huid, howned, hgiven⟩ := h.entries id tp hid
    exact ⟨uid, huid, howned, hgiven.append []⟩

/-- An entry under the cgroup ID of a pod's process was written for the pod. -/
theorem Inv.cgroup_given {x : Node × List Event} (h : Inv taskParamsOpen cgroupParamsOpen x)
    {pid : U32} {p : Proc} {uid : String} {tp : TaskParams}
    (hp : x.1.procs.lookup pid = some p) (hpod : p.pod = some uid)
    (hentry : x.1.maps.kernel.cgroupParams.lookup p.cgroup.id = some tp) :
    Given taskParamsOpen cgroupParamsOpen x.2 uid tp := by
  obtain ⟨owner, howner, ⟨d, hd, hid, hsub⟩, hgiven⟩ := h.entries _ _ hentry
  obtain ⟨hcreated, hbelongs⟩ := h.wf.procs pid p hp
  have hdir : d = p.cgroup := List.inj_on_of_nodup_map h.wf.ids hd hcreated hid
  rw [hdir] at hsub
  simp only [belongs, hpod, Bool.and_eq_true, Bool.or_eq_true, Bool.not_eq_true'] at hbelongs
  rcases hbelongs.2 with hin | hout
  · rwa [subtree_unique hbelongs.1 howner hin hsub]
  · rw [subtree_underKubepods hsub] at hout
    cases hout

/-- So the entries under PIDs decide. -/
theorem ownParams_iff {x : Node × List Event} (h : Inv taskParamsOpen cgroupParamsOpen x) :
    OwnParams taskParamsOpen cgroupParamsOpen x ↔
      OwnEntries taskParamsOpen cgroupParamsOpen x := by
  constructor
  · intro hown pid p uid tp hp hpod htp
    have hgiven := hown pid p uid hp hpod
    rwa [lookupTaskParams_of_task (p := taskOf pid p) htp] at hgiven
  · intro hown pid p uid hp hpod
    rcases lookupTaskParams_cases x.1.maps.kernel (taskOf pid p) with hdef | htask | hcgroup
    · exact .inl hdef
    · exact hown pid p uid _ hp hpod htask
    · exact h.cgroup_given hp hpod hcgroup

/-! ## Entries under PIDs -/

/-- A step that gives no PID away and writes none. -/
theorem OwnEntries.keep (h : OwnEntries taskParamsOpen cgroupParamsOpen (s, log))
    (hprocs : ∀ pid p, t.procs.lookup pid = some p →
      ∃ q, s.procs.lookup pid = some q ∧ q.pod = p.pod)
    (htask : ∀ pid tp, t.maps.kernel.taskParams.lookup pid = some tp →
      s.maps.kernel.taskParams.lookup pid = some tp) :
    OwnEntries taskParamsOpen cgroupParamsOpen (t, log ++ es) := by
  intro pid p uid tp hp hpod htp
  obtain ⟨q, hq, hpods⟩ := hprocs pid p hp
  exact (h pid q uid tp hq (hpods.trans hpod) (htask pid tp htp)).append es

theorem ownEntries_start (h : OwnEntries taskParamsOpen cgroupParamsOpen (s, log)) {pid : U32}
    (pod : Option String) (dir : Dir) :
    OwnEntries taskParamsOpen cgroupParamsOpen
        ({ s with procs := s.procs.insert pid ⟨pod, dir⟩ }, log ++ []) ↔
      Clean taskParamsOpen cgroupParamsOpen (s, log) (.start pid pod dir) := by
  rw [List.append_nil]
  constructor
  · intro hown uid huid tp htp
    exact hown pid ⟨pod, dir⟩ uid tp (Finmap.lookup_insert _) huid htp
  · intro hclean q p uid tp hp hpod htp
    rcases lookup_insert_eq_some.mp hp with ⟨rfl, rfl⟩ | ⟨-, hp⟩
    · exact hclean uid hpod tp htp
    · exact h q p uid tp hp hpod htp

theorem given_concat {c : Update} {err : Option String} {uid : String}
    (hkeys : pidKeys taskParamsOpen cgroupParamsOpen c ≠ []) :
    Given taskParamsOpen cgroupParamsOpen (log ++ [.updated c err]) uid c.params ↔
      uid = c.pod.uid ∨ Given taskParamsOpen cgroupParamsOpen log uid c.params := by
  constructor
  · rintro (hdef | ⟨e, he, hw⟩)
    · exact .inr (.inl hdef)
    · rcases List.mem_append.mp he with he | he
      · exact .inr (.inr ⟨e, he, hw⟩)
      · cases List.mem_singleton.mp he
        exact .inl hw.1.symm
  · rintro (rfl | h)
    · exact .inr ⟨_, List.mem_append_right _ List.mem_cons_self, rfl, rfl, .inr hkeys⟩
    · exact h.append _

theorem ownEntries_update (hI : Inv taskParamsOpen cgroupParamsOpen (s, log))
    (h : OwnEntries taskParamsOpen cgroupParamsOpen (s, log)) {c : Update}
    (hcall : s.call = some (.update c)) (err : Option String) :
    OwnEntries taskParamsOpen cgroupParamsOpen
        ({ s with maps := (updatePodParams s.maps c).1, call := none }, log ++ [.updated c err]) ↔
      Clean taskParamsOpen cgroupParamsOpen (s, log) .write := by
  have hlookup := lookup_update_pid s.maps c
  rw [hI.task, hI.cgroup] at hlookup
  simp only [Clean, hcall]
  constructor
  · intro hown pid hpid p hp uid hpod
    refine (given_concat (List.ne_nil_of_mem hpid)).mp (hown pid p uid c.params hp hpod ?_)
    exact (hlookup pid).trans (if_pos hpid)
  · intro hclean pid p uid tp hp hpod htp
    change (updatePodParams s.maps c).1.kernel.taskParams.lookup pid = some tp at htp
    rw [hlookup] at htp
    split at htp
    · next hpid =>
      cases htp
      exact (given_concat (List.ne_nil_of_mem hpid)).mpr (hclean pid hpid p hp uid hpod)
    · exact (h pid p uid tp hp hpod htp).append _

theorem ownEntries_step (hI : Inv taskParamsOpen cgroupParamsOpen (s, log))
    (h : OwnEntries taskParamsOpen cgroupParamsOpen (s, log)) (hs : Does s a t es) :
    OwnEntries taskParamsOpen cgroupParamsOpen (t, log ++ es) ↔
      Clean taskParamsOpen cgroupParamsOpen (s, log) a := by
  cases hs with
  | start => exact ownEntries_start h _ _
  | update hcall => exact ownEntries_update hI h hcall _
  | @exit pid =>
    exact iff_of_true (h.keep (fun q p hp => ⟨p, (lookup_erase_eq_some.mp hp).2, rfl⟩)
      fun _ _ htp => htp) trivial
  | @migrate pid p dir hp =>
    refine iff_of_true (h.keep (fun q p' hp' => ?_) fun _ _ htp => htp) trivial
    rcases lookup_insert_eq_some.mp hp' with ⟨rfl, rfl⟩ | ⟨-, hp'⟩
    · exact ⟨p, hp, rfl⟩
    · exact ⟨p', hp', rfl⟩
  | @remove r hcall =>
    refine iff_of_true (h.keep (fun _ p hp => ⟨p, hp, rfl⟩) fun _ _ htp => ?_) ?_
    · exact lookup_remove_pid s.maps r htp
    · simp only [Clean, hcall]
  | deletePID =>
    exact iff_of_true (h.keep (fun _ p hp => ⟨p, hp, rfl⟩) fun _ _ htp => lookup_deleteIf htp)
      trivial
  | _ => exact iff_of_true (h.keep (fun _ p hp => ⟨p, hp, rfl⟩) fun _ _ htp => htp) trivial

/-- From a start over empty maps, in all states a list of actions leads through
every process of a pod has the defaults or its own pod's parameters, exactly when
no action gives a PID with another pod's entry to a process or writes the PID of
another pod's process. -/
theorem own_params_iff {tree : CgroupTree} (hids : (tree.dirs.map Dir.id).Nodup)
    (taskParamsOpen cgroupParamsOpen : Bool) (as : List Action) :
    AllStates (logged step) (OwnParams taskParamsOpen cgroupParamsOpen)
        (boot tree ⟨∅, ∅⟩ taskParamsOpen cgroupParamsOpen, []) as ↔
      AllSteps (logged step) (Clean taskParamsOpen cgroupParamsOpen)
        (boot tree ⟨∅, ∅⟩ taskParamsOpen cgroupParamsOpen, []) as := by
  refine allStates_iff_allSteps (I := Inv taskParamsOpen cgroupParamsOpen) ?_ ?_ (boot_inv hids)
    ?_ as
  · rintro ⟨s, log⟩ a ⟨t, log'⟩ es hI hs
    obtain ⟨hs, rfl⟩ := logged_eq_some hs
    exact hI.step (step_does hs)
  · rintro ⟨s, log⟩ a ⟨t, log'⟩ es hI hP hs
    obtain ⟨hs, rfl⟩ := logged_eq_some hs
    rw [ownParams_iff (hI.step (step_does hs))]
    exact ownEntries_step hI ((ownParams_iff hI).mp hP) (step_does hs)
  · intro pid p uid hp
    cases hp

def customA : Dir := ⟨["poda", "custom"], 2⟩
def customB : Dir := ⟨["podb", "custom"], 3⟩

/-- The pods are below another cgroup root, so PIDs are resolved by a scan of
`/proc`. -/
def customRoot : CgroupTree where
  dirs := [⟨["custom"], 1⟩, customA, customB]
  usedIds := [1, 2, 3]
  known := by decide

def fallback : Update := ⟨podA, some ⟨9000, 0⟩, [], [⟨7, none⟩]⟩

/-- The entry is deleted with the first pod before its PID is used again. -/
theorem own_params_iff_removed :
    AllStates (logged step) (OwnParams true true) (boot customRoot ⟨∅, ∅⟩ true true, [])
      [.start 7 (some "a") customA, .find (.update fallback) { listed := {7} }, .write,
        .exit 7, .find (.remove ⟨podA, [], [], [], []⟩) {}, .write,
        .start 7 (some "b") customB] :=
  (own_params_iff (by decide) true true _).mpr (by decide)

/-- The first pod's process exits and its PID goes to a process of the second
pod, which runs with the first pod's parameters. -/
theorem reused_pid :
    ∃ s p err, exec step (boot customRoot ⟨∅, ∅⟩ true true)
        [.start 7 (some "a") customA, .find (.update fallback) { listed := {7} }, .write,
          .exit 7, .start 7 (some "b") customB] = some (s, [.updated fallback err]) ∧
      s.procs.lookup 7 = some p ∧ p.pod = some "b" ∧
      lookupTaskParams s.maps.kernel (taskOf 7 p) = (true, ⟨9000, 0⟩) :=
  ⟨_, _, _, rfl, rfl, rfl, by decide⟩

end K8sSched.Agent.PidReuse
