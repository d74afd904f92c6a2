import K8sSched.Agent.Host

/-! # Which processes of a pod an update covers

In cgroup mode `UpdatePodParams` writes one entry for each directory of the
pod's subtree that its walk reads, and the scheduler looks up the one ID of a
task's cgroup. Processes that start later in these directories are covered. A
process in a directory made after the walk is not, until the pod's next
update. -/

namespace K8sSched.Agent.Coverage

open K8sSched.Bpf.Params K8sSched.Agent.Pods K8sSched.Agent.MapOps K8sSched.Agent.CgroupFs
open K8sSched.Agent.PodSubtrees K8sSched.Agent.Host K8sSched.Lib.GoMap K8sSched.Lib.Runs

/-- Updates find the pod's directory and their writes succeed; no sweep deletes
anything. -/
def CgroupMode (_ : Node) : Action → Prop
  | .find (.update c) _ => c.TakesCgroupPath true ∧ ∀ p ∈ c.cgids, p.err = none
  | .deletePID .. | .deleteCgroupID .. => False
  | _ => True

/-- No call for the pod. -/
def Quiet (uid : String) : Action → Prop
  | .find call _ => call.uid ≠ uid
  | _ => True

instance (s : Node) (a : Action) : Decidable (CgroupMode s a) := by
  unfold CgroupMode
  split <;> infer_instance

instance (uid : String) (a : Action) : Decidable (Quiet uid a) := by
  unfold Quiet
  split <;> infer_instance

/-- The directory exists, and the walk for the pod comes to it and reads its ID. -/
def Walked (tree : CgroupTree) (f : Faults) (uid : String) (dir : Dir) : Prop :=
  dir ∈ tree.dirs ∧ ∃ root, findPodCgroupDir tree f uid = some root ∧
    walks f root dir.path ∧ dir.path ∉ f.stat

theorem mem_resolved {tree : CgroupTree} {f : Faults} {uid : String} (hu : uid ≠ "") {id : U64} :
    id ∈ resolvePodCgroupIDs tree f uid ↔ ∃ dir, Walked tree f uid dir ∧ dir.id = id := by
  unfold resolvePodCgroupIDs
  rw [if_neg hu]
  cases hroot : findPodCgroupDir tree f uid with
  | none => simp [Walked, hroot]
  | some root =>
    simp only [walkIds, Walked, hroot, List.mem_map, List.mem_filter, Bool.and_eq_true,
      decide_eq_true_eq, Option.some.injEq, exists_eq_left']

/-! ## Runs in cgroup mode -/

/-- `task_params` stays empty, and the call that is about to write will use
`cgroup_params`. -/
structure Primary (s : Node) : Prop where
  wf : Wf s
  empty : s.maps.kernel.taskParams = ∅
  task : s.maps.taskParamsOpen
  cgroup : s.maps.cgroupParamsOpen
  pending : ∀ c, s.call = some (.update c) →
    c.TakesCgroupPath true ∧ ∀ p ∈ c.cgids, p.err = none

theorem boot_primary {tree : CgroupTree} (hids : (tree.dirs.map Dir.id).Nodup)
    (cgroupParams : Finmap fun _ : U64 => TaskParams) :
    Primary (boot tree ⟨∅, cgroupParams⟩ true true) where
  wf := boot_wf hids _ _ _
  empty := rfl
  task := rfl
  cgroup := rfl
  pending := by
    intro c hc
    cases hc

theorem deleteAll_empty {κ : Type} [DecidableEq κ] (keys failing : List κ) :
    deleteAll ∅ keys failing = ∅ := by
  refine Finmap.ext_lookup fun k => ?_
  rw [deleteAll, lookup_eraseAll]
  split
  · rfl
  · rfl

theorem remove_taskParams {m : Maps} (h : m.kernel.taskParams = ∅) (r : Removal) :
    (removePodParams m r).kernel.taskParams = ∅ := by
  unfold removePodParams
  split
  · simp only [h, deleteAll_empty]
  · exact h

theorem Primary.step {s t : Node} {a : Action} {es : List Event} (h : Primary s)
    (hok : CgroupMode s a) (hs : step s a = some (t, es)) : Primary t := by
  have hs := step_does hs
  have hwf := h.wf.step hs
  cases hs with
  | find =>
    refine { h with wf := hwf, pending := fun c hc => ?_ }
    cases hc
    exact hok
  | @update c hcall =>
    obtain ⟨htask, hcgroup⟩ := apply_open s.maps (.update c)
    refine ⟨hwf, ?_, htask.trans h.task, hcgroup.trans h.cgroup, fun c hc => by cases hc⟩
    have hpath := (h.pending c hcall).1
    rw [← h.cgroup] at hpath
    change (updatePodParams s.maps c).1.kernel.taskParams = ∅
    rw [updatePodParams_cgroup _ _ h.task hpath]
    exact h.empty
  | @remove r =>
    obtain ⟨htask, hcgroup⟩ := apply_open s.maps (.remove r)
    exact ⟨hwf, remove_taskParams h.empty r, htask.trans h.task, hcgroup.trans h.cgroup,
      fun c hc => by cases hc⟩
  | deletePID | deleteCgroupID => exact hok.elim
  | _ => exact { h with wf := hwf }

theorem Primary.run {s t : Node} {tr : List Event} (h : Primary s)
    (hrun : Run Host.step CgroupMode s tr t) : Primary t :=
  hrun.invariant (I := fun _ s => Primary s) h fun _ _ _ _ _ ih hok hs => ih.step hok hs

/-- Without entries under the PID the lookup is the one under the cgroup ID. -/
theorem Primary.lookup_iff {s : Node} (h : Primary s) (pid : U32) (p : Proc) (tp : TaskParams) :
    lookupTaskParams s.maps.kernel (taskOf pid p) = (true, tp) ↔
      p.cgroup.id ≠ 0 ∧ s.maps.kernel.cgroupParams.lookup p.cgroup.id = some tp := by
  have hpid : s.maps.kernel.taskParams.lookup (taskOf pid p).tgid = none := by
    rw [h.empty]
    rfl
  exact lookupTaskParams_iff hpid

/-! ## The pod's entries between its updates -/

/-- Since `s₀`, nothing has changed under the IDs that belong to no other pod,
and no call for the pod is about to write. -/
structure Undisturbed (uid : String) (s₀ s : Node) : Prop where
  primary : Primary s
  kept : ∀ id, (∀ v, isUid v → v ≠ uid → ¬ Owned s.created v id) →
    s.maps.kernel.cgroupParams.lookup id = s₀.maps.kernel.cgroupParams.lookup id
  others : ∀ call ∈ s.call, call.uid ≠ uid

section Undisturbed

variable {uid : String} {s₀ s t : Node} {a : Action} {es : List Event}

theorem Undisturbed.apply (h : Undisturbed uid s₀ s) {x : Call} (hcall : s.call = some x)
    {id : U64} (hid : ∀ v, isUid v → v ≠ uid → ¬ Owned s.created v id) :
    (x.apply s.maps).kernel.cgroupParams.lookup id =
      s₀.maps.kernel.cgroupParams.lookup id := by
  obtain ⟨huid, howned⟩ := h.primary.wf.call x hcall
  have hnone := hid x.uid huid (h.others x hcall)
  rw [apply_lookup_of_not_owned h.primary.wf howned hnone]
  exact h.kept id hid

theorem Undisturbed.step (h : Undisturbed uid s₀ s) (hmode : CgroupMode s a)
    (hquiet : Quiet uid a) (hs : step s a = some (t, es)) : Undisturbed uid s₀ t := by
  have hprimary := h.primary.step hmode hs
  cases step_does hs with
  | mkdir =>
    refine { h with primary := hprimary, kept := fun id hid => h.kept id fun v hv hne hown => ?_ }
    exact hid v hv hne (hown.mono fun d hd => List.mem_cons_of_mem _ hd)
  | find =>
    refine { h with primary := hprimary, others := fun call hc => ?_ }
    cases hc
    exact hquiet
  | update hcall =>
    exact ⟨hprimary, fun id hid => h.apply hcall hid, fun call hc => by cases hc⟩
  | remove hcall =>
    exact ⟨hprimary, fun id hid => h.apply hcall hid, fun call hc => by cases hc⟩
  | deletePID | deleteCgroupID => exact hmode.elim
  | _ => exact { h with primary := hprimary }

theorem Undisturbed.run {tr : List Event} (h : Undisturbed uid s₀ s)
    (hrun : Run Host.step (fun s a => CgroupMode s a ∧ Quiet uid a) s tr t) :
    Undisturbed uid s₀ t :=
  hrun.invariant (I := fun _ s => Undisturbed uid s₀ s) h
    fun _ _ _ _ _ ih hok hs => ih.step hok.1 hok.2 hs

end Undisturbed

/-- What an update that wrote without an error leaves under an ID. -/
theorem lookup_written {s t : Node} (hs : Primary s) {c : Update}
    (hwrite : step s .write = some (t, [.updated c none])) (id : U64) :
    t.maps.kernel.cgroupParams.lookup id =
      if id ∈ (Call.update c).cgids then some c.params
      else s.maps.kernel.cgroupParams.lookup id := by
  obtain ⟨hcall, rfl⟩ := write_updated hwrite
  obtain ⟨hpath, herr⟩ := hs.pending c hcall
  change ((Call.update c).apply s.maps).kernel.cgroupParams.lookup id = _
  have hkeys : cgroupKeys true true c = (Call.update c).cgids := by
    rw [cgroupKeys, if_pos ⟨rfl, hpath⟩, succeeded_of_all herr, Call.cgids]
  rw [lookup_apply]
  simp only [Call.effect, hs.task, hs.cgroup, hkeys]
  split
  · rfl
  · rfl

/-- In cgroup mode, let an update of a pod look at the node in `s₀` and write in
`s₂` without an error. Until the next call for the pod, whatever happens on the
node, a process in the pod's subtree gets the update's parameters exactly when
its cgroup directory was there in `s₀` and the walk read it, or happened to have
an entry with these parameters from before. -/
theorem covered_iff {tree : CgroupTree} (hids : (tree.dirs.map Dir.id).Nodup)
    {cgroupParams : Finmap fun _ : U64 => TaskParams} {c : Update} {f : HostFaults}
    {s₀ s₁ s₂ s₃ t : Node} {tr₀ tr₁ tr₂ es : List Event}
    (hbefore : Run step CgroupMode (boot tree ⟨∅, cgroupParams⟩ true true) tr₀ s₀)
    (hmode : CgroupMode s₀ (.find (.update c) f))
    (hfind : step s₀ (.find (.update c) f) = some (s₁, es))
    (hmeanwhile : Run step CgroupMode s₁ tr₁ s₂)
    (hwrite : step s₂ .write = some (s₃, [.updated c none]))
    (hsince : Run step (fun s a => CgroupMode s a ∧ Quiet c.pod.uid a) s₃ tr₂ t)
    (pid : U32) (p : Proc) (hp : t.procs.lookup pid = some p)
    (hsub : inSubtree c.pod.uid p.cgroup.path) :
    lookupTaskParams t.maps.kernel (taskOf pid p) = (true, c.params) ↔
      p.cgroup.id ≠ 0 ∧ (Walked s₀.tree f.toFaults c.pod.uid p.cgroup ∨
        s₂.maps.kernel.cgroupParams.lookup p.cgroup.id = some c.params) := by
  have h₀ : Primary s₀ := (boot_primary hids _).run hbefore
  have h₁ : Primary s₁ := h₀.step hmode hfind
  have h₂ : Primary s₂ := h₁.run hmeanwhile
  have h₃ : Primary s₃ := h₂.step (a := .write) trivial hwrite
  obtain ⟨huid, hfound⟩ : isUid c.pod.uid ∧ (Call.update c).FoundOn s₀.tree s₀.procs f := by
    cases step_does hfind with
    | find _ huid hfound => exact ⟨huid, hfound⟩
  have hcall : s₃.call = none := by
    obtain ⟨-, rfl⟩ := write_updated hwrite
    rfl
  have h : Undisturbed c.pod.uid s₃ t := Undisturbed.run
    ⟨h₃, fun _ _ => rfl, fun call hc => by rw [hcall] at hc; cases hc⟩ hsince
  obtain ⟨hcreated, -⟩ := h.primary.wf.procs pid p hp
  have hkept := h.kept p.cgroup.id fun v hv hne hown =>
    hne (Owned.unique h.primary.wf.ids hv huid hown ⟨p.cgroup, hcreated, rfl, hsub⟩)
  have hall : Run step (fun _ _ => True) s₀ _ t :=
    (((Run.refl.tail trivial hfind).trans (hmeanwhile.mono fun _ _ _ => trivial)).tail trivial
      hwrite).trans (hsince.mono fun _ _ _ => trivial)
  have hwalked : p.cgroup.id ∈ (Call.update c).cgids ↔
      Walked s₀.tree f.toFaults c.pod.uid p.cgroup := by
    rw [hfound.1.mem_iff]
    refine (mem_resolved hmode.1.uid_ne).trans ⟨?_, fun hw => ⟨p.cgroup, hw, rfl⟩⟩
    rintro ⟨dir, hw, hid⟩
    -- IDs are not used again, so the directory is the one the walk read
    have hdir : dir ∈ t.created := run_created_subset hall dir (h₀.wf.dirs dir hw.1)
    rwa [← List.inj_on_of_nodup_map h.primary.wf.ids hdir hcreated hid]
  rw [h.primary.lookup_iff, hkept, lookup_written h₂ hwrite]
  by_cases hw : p.cgroup.id ∈ (Call.update c).cgids
  · simp [hw, hwalked.mp hw]
  · simp [hw, mt hwalked.mpr hw]

def dirC : Dir := ⟨["c1", "poda", "kubepods"], 4⟩

def updateOf (cgids : List U64) : Update := ⟨podA, some ⟨9000, 0⟩, cgids.map (⟨·, none⟩), []⟩

/-- A process that starts after the update, in a container that was there. -/
theorem covered_iff_later_process :
    ∃ s es p, exec step (boot twoPods ⟨∅, ∅⟩ true true)
        [.mkdir dirC.path 4, .find (.update (updateOf [4, 2])) {}, .write,
          .start 8 (some "a") dirC] = some (s, es) ∧
      s.procs.lookup 8 = some p ∧
      lookupTaskParams s.maps.kernel (taskOf 8 p) = (true, ⟨9000, 0⟩) := by
  have hbefore : Run step CgroupMode (boot twoPods ⟨∅, ∅⟩ true true) _ _ :=
    Run.of_isSome [.mkdir dirC.path 4] (by decide) (by decide)
  refine ⟨_, _, ⟨some "a", dirC⟩, rfl, rfl, ?_⟩
  have hiff := covered_iff (c := updateOf [4, 2]) (f := {}) (by decide) hbefore (by decide) rfl
    .refl rfl (Run.of_isSome [.start 8 (some "a") dirC] (by decide) (by decide))
    8 ⟨some "a", dirC⟩ rfl (by decide)
  exact hiff.mpr
    ⟨by decide, .inl ⟨by decide, ["poda", "kubepods"], by decide, by decide, by decide⟩⟩

/-- A container made after the update: its process runs with the defaults. -/
theorem later_container_uncovered :
    ∃ s c p, exec step (boot twoPods ⟨∅, ∅⟩ true true)
        [.find (.update (updateOf [2])) {}, .write, .mkdir dirC.path 4, .start 7 (some "a") dirC] =
          some (s, [.updated c none]) ∧
      c.params = ⟨9000, 0⟩ ∧ s.procs.lookup 7 = some p ∧ inSubtree "a" p.cgroup.path ∧
      lookupTaskParams s.maps.kernel (taskOf 7 p) = (false, ⟨1000, 0⟩) := by
  refine ⟨_, _, _, rfl, rfl, rfl, by decide, by decide⟩

end K8sSched.Agent.Coverage
