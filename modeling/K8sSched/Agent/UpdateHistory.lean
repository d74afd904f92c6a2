import K8sSched.Agent.MapOps

/-! # What a history of updates leaves in the maps

Two questions about any history of `UpdatePodParams` calls, for any pods and
with any outcome of every resolution and write: whether the kernel reads what
the last call wrote, and whether a removal deletes everything the pod's updates
wrote. The kernel looks into `task_params` first, so an entry an earlier
fallback left there hides a later cgroup entry; and only the keys of the last
update on each channel are recorded for the removal. -/

namespace K8sSched.Agent.UpdateHistory

open K8sSched.Bpf.Params K8sSched.Agent.Pods K8sSched.Agent.MapOps
open K8sSched.Lib.GoMap K8sSched.Lib.WriteRecord

section History

variable (taskParamsOpen cgroupParamsOpen : Bool) (h : List Update)

/-- The writes of a history to the cgroup channel. -/
def cgroupWrites : List (Write String U64 TaskParams) :=
  h.filterMap (Update.cgroupWrite taskParamsOpen cgroupParamsOpen)

/-- The writes of a history to the PID channel. -/
def taskWrites : List (Write String U32 TaskParams) :=
  h.filterMap (Update.taskWrite taskParamsOpen cgroupParamsOpen)

theorem lookup_taskParams (k : U32) :
    (updates (opened taskParamsOpen cgroupParamsOpen) h).kernel.taskParams.lookup k =
      lastValue (taskWrites taskParamsOpen cgroupParamsOpen h) k := by
  have hl := opened_taskLedger taskParamsOpen cgroupParamsOpen h
  rw [taskWrites, ← Ledger.lookup_run, ← hl]
  rfl

end History

/-! ## The kernel after an update -/

/-- The call found the task: by its cgroup on the cgroup path, by its process
ID on the fallback path. -/
def Resolves (taskParamsOpen cgroupParamsOpen : Bool) (c : Update) (p : Task) : Prop :=
  taskParamsOpen ∧
    if c.TakesCgroupPath cgroupParamsOpen then taskCgroupId p ∈ c.cgids.map Put.key
    else p.tgid ∈ c.resolvePodPIDs.map Put.key

section Update

variable {m : Maps} {c : Update} {p : Task}

/-- An update on the fallback path is read back by every task it found. -/
theorem reads_fallback (hopen : m.taskParamsOpen) (hpath : ¬ c.TakesCgroupPath m.cgroupParamsOpen)
    (hnil : (updatePodParams m c).2 = none) (hres : p.tgid ∈ c.resolvePodPIDs.map Put.key) :
    lookupTaskParams (updatePodParams m c).1.kernel p = (true, c.params) := by
  have hu : c.pod.uid ≠ "" := by
    intro h0
    rw [Update.resolvePodPIDs, resolveFor, if_pos h0] at hres
    simp at hres
  rw [updatePodParams_task m c hopen hpath hu] at hnil ⊢
  have hall := (putAll_firstErr putPidError c.params m.kernel.taskParams c.pids).mp hnil
  rw [Update.resolvePodPIDs, resolveFor_of_ne hu, ← succeeded_of_all hall] at hres
  apply lookupTaskParams_of_task
  show (insertAll m.kernel.taskParams (succeeded c.pids) c.params).lookup p.tgid = _
  rw [lookup_insertAll, if_pos hres]

/-- An update on the cgroup path is read back by a task it found exactly when
the same parameters are stored under the task's process ID, or none are and its
cgroup ID is not zero. -/
theorem reads_cgroup_iff (hopen : m.taskParamsOpen) (hpath : c.TakesCgroupPath m.cgroupParamsOpen)
    (hnil : (updatePodParams m c).2 = none) (hres : taskCgroupId p ∈ c.cgids.map Put.key) :
    lookupTaskParams (updatePodParams m c).1.kernel p = (true, c.params) ↔
      m.kernel.taskParams.lookup p.tgid = some c.params ∨
        m.kernel.taskParams.lookup p.tgid = none ∧ taskCgroupId p ≠ 0 := by
  have htask : (updatePodParams m c).1.kernel.taskParams = m.kernel.taskParams := by
    rw [updatePodParams_cgroup m c hopen hpath]
  have hcgroup : (updatePodParams m c).1.kernel.cgroupParams.lookup (taskCgroupId p) =
      some c.params := by
    rw [updatePodParams_cgroup m c hopen hpath] at hnil ⊢
    have hall := (putAll_firstErr putCgroupError c.params m.kernel.cgroupParams c.cgids).mp hnil
    rw [← succeeded_of_all hall] at hres
    show (insertAll m.kernel.cgroupParams (succeeded c.cgids) c.params).lookup _ = _
    rw [lookup_insertAll, if_pos hres]
  rw [← htask]
  cases hold : (updatePodParams m c).1.kernel.taskParams.lookup p.tgid with
  | none =>
    by_cases hne : taskCgroupId p = 0
    · rw [lookupTaskParams_of_neither hold hne]
      simp [hne]
    · exact iff_of_true (lookupTaskParams_of_cgroup hold hne hcgroup) (.inr ⟨rfl, hne⟩)
  | some tp =>
    rw [lookupTaskParams_of_task hold]
    simp

end Update

/-- After any history, an update that returns nil is read back by a task it
found exactly when it took the fallback path, or the last fallback write to the
task's process ID carried the same parameters, or there was none (and the
cgroup ID is not zero, which stands for an unknown cgroup). -/
theorem reads_update_iff (taskParamsOpen cgroupParamsOpen : Bool) (h : List Update) (c : Update)
    (p : Task)
    (hnil : (updatePodParams (updates (opened taskParamsOpen cgroupParamsOpen) h) c).2 = none)
    (hres : Resolves taskParamsOpen cgroupParamsOpen c p) :
    lookupTaskParams
          (updatePodParams (updates (opened taskParamsOpen cgroupParamsOpen) h) c).1.kernel p =
        (true, c.params) ↔
      ¬ c.TakesCgroupPath cgroupParamsOpen ∨
        lastValue (taskWrites taskParamsOpen cgroupParamsOpen h) p.tgid = some c.params ∨
        lastValue (taskWrites taskParamsOpen cgroupParamsOpen h) p.tgid = none ∧
          taskCgroupId p ≠ 0 := by
  obtain ⟨htask, hcgroup⟩ := updates_open (opened taskParamsOpen cgroupParamsOpen) h
  have hopen : (updates (opened taskParamsOpen cgroupParamsOpen) h).taskParamsOpen := by
    rw [htask]
    exact hres.1
  have hfound := hres.2
  by_cases hpath : c.TakesCgroupPath cgroupParamsOpen
  · rw [if_pos hpath] at hfound
    rw [reads_cgroup_iff hopen (by rwa [hcgroup]) hnil hfound, lookup_taskParams]
    simp [hpath]
  · rw [if_neg hpath] at hfound
    exact iff_of_true (reads_fallback hopen (by rwa [hcgroup]) hnil hfound) (.inl hpath)

/-- An update of `web` that finds only a PID. -/
def byPid (tp : TaskParams) : Update := { pod := web, resolved := some tp, pids := [⟨7, none⟩] }

/-- An update of `web` that finds its cgroups. -/
def byCgroup (tp : TaskParams) (ids : List U64) : Update :=
  { pod := web, resolved := some tp, cgids := ids.map fun id => ⟨id, none⟩ }

theorem reads_update_iff_twice :
    lookupTaskParams
        (updatePodParams (updates (opened true true) [byPid ⟨1000, 0⟩])
          (byCgroup ⟨1000, 0⟩ [42])).1.kernel ⟨7, some 42⟩ = (true, ⟨1000, 0⟩) :=
  (reads_update_iff true true [byPid ⟨1000, 0⟩] (byCgroup ⟨1000, 0⟩ [42]) ⟨7, some 42⟩
    (by decide) ⟨rfl, by decide⟩).mpr (.inr (.inl (by decide)))

/-- The first update finds only a PID, the second the pod's cgroup: the kernel
keeps reading the parameters of the first. -/
theorem reads_stale_after_fallback :
    let m := updatePodParams (updates (opened true true) [byPid ⟨1000, 0⟩])
      (byCgroup ⟨9000, 0⟩ [42])
    Resolves true true (byCgroup ⟨9000, 0⟩ [42]) ⟨7, some 42⟩ ∧ m.2 = none ∧
      lookupTaskParams m.1.kernel ⟨7, some 42⟩ = (true, ⟨1000, 0⟩) ∧
      (byCgroup ⟨9000, 0⟩ [42]).params = ⟨9000, 0⟩ := by
  refine ⟨⟨rfl, by decide⟩, by decide, by decide, by decide⟩

/-! ## The maps after a removal -/

section Removal

variable (taskParamsOpen cgroupParamsOpen : Bool) (h : List Update)

theorem cgroupWrites_closed (hclosed : ¬ (taskParamsOpen ∧ cgroupParamsOpen)) :
    cgroupWrites taskParamsOpen cgroupParamsOpen h = [] := by
  refine List.filterMap_eq_nil_iff.mpr fun c _ => if_neg ?_
  rintro ⟨htask, hcgroup, -⟩
  exact hclosed ⟨htask, hcgroup⟩

theorem taskWrites_closed (hclosed : ¬ taskParamsOpen) :
    taskWrites taskParamsOpen cgroupParamsOpen h = [] :=
  List.filterMap_eq_nil_iff.mpr fun _ _ => if_neg fun hc => hclosed hc.1

variable {r : Removal}

theorem removed_cgroup_iff (hdel : r.failingCgids = []) :
    (∀ k ∈ everWritten (cgroupWrites taskParamsOpen cgroupParamsOpen h) r.pod.uid,
        (removePodParams (updates (opened taskParamsOpen cgroupParamsOpen) h)
          r).kernel.cgroupParams.lookup k = none) ↔
      ∀ k ∈ everWritten (cgroupWrites taskParamsOpen cgroupParamsOpen h) r.pod.uid,
        k ∈ lastKeys (cgroupWrites taskParamsOpen cgroupParamsOpen h) r.pod.uid ∨
          k ∈ r.resolvePodCgroupIDs := by
  by_cases hopen : taskParamsOpen ∧ cgroupParamsOpen
  · obtain ⟨htask, hcgroup⟩ := updates_open (opened taskParamsOpen cgroupParamsOpen) h
    have hl := remove_cgroupLedger (htask.trans hopen.1) (hcgroup.trans hopen.2) hdel
    rw [opened_cgroupLedger] at hl
    rw [← Ledger.removed_iff, cgroupWrites, ← hl]
    rfl
  · rw [cgroupWrites_closed _ _ h hopen]
    simp [everWritten]

theorem removed_task_iff (hdel : r.failingPids = []) :
    (∀ k ∈ everWritten (taskWrites taskParamsOpen cgroupParamsOpen h) r.pod.uid,
        (removePodParams (updates (opened taskParamsOpen cgroupParamsOpen) h)
          r).kernel.taskParams.lookup k = none) ↔
      ∀ k ∈ everWritten (taskWrites taskParamsOpen cgroupParamsOpen h) r.pod.uid,
        k ∈ lastKeys (taskWrites taskParamsOpen cgroupParamsOpen h) r.pod.uid ∨
          k ∈ r.resolvePodPIDs := by
  by_cases hopen : taskParamsOpen
  · obtain ⟨htask, -⟩ := updates_open (opened taskParamsOpen cgroupParamsOpen) h
    have hl := remove_taskLedger (htask.trans hopen) hdel
    rw [opened_taskLedger] at hl
    rw [← Ledger.removed_iff, taskWrites, ← hl]
    rfl
  · rw [taskWrites_closed _ _ h hopen]
    simp [everWritten]

end Removal

/-- After any history, a removal whose deletes all succeed leaves no key that an
update of the pod wrote exactly when every such key was written again by the
pod's last update on its channel or is still found for the pod. -/
theorem removed_all_iff (taskParamsOpen cgroupParamsOpen : Bool) (h : List Update) (r : Removal)
    (hcgids : r.failingCgids = []) (hpids : r.failingPids = []) :
    ((∀ k ∈ everWritten (cgroupWrites taskParamsOpen cgroupParamsOpen h) r.pod.uid,
        (removePodParams (updates (opened taskParamsOpen cgroupParamsOpen) h)
          r).kernel.cgroupParams.lookup k = none) ∧
      ∀ k ∈ everWritten (taskWrites taskParamsOpen cgroupParamsOpen h) r.pod.uid,
        (removePodParams (updates (opened taskParamsOpen cgroupParamsOpen) h)
          r).kernel.taskParams.lookup k = none) ↔
      (∀ k ∈ everWritten (cgroupWrites taskParamsOpen cgroupParamsOpen h) r.pod.uid,
        k ∈ lastKeys (cgroupWrites taskParamsOpen cgroupParamsOpen h) r.pod.uid ∨
          k ∈ r.resolvePodCgroupIDs) ∧
      ∀ k ∈ everWritten (taskWrites taskParamsOpen cgroupParamsOpen h) r.pod.uid,
        k ∈ lastKeys (taskWrites taskParamsOpen cgroupParamsOpen h) r.pod.uid ∨
          k ∈ r.resolvePodPIDs :=
  and_congr (removed_cgroup_iff _ _ h hcgids) (removed_task_iff _ _ h hpids)

theorem removed_all_iff_grown :
    (removePodParams
        (updates (opened true true) [byCgroup ⟨1000, 0⟩ [42], byCgroup ⟨1000, 0⟩ [42, 43]])
        { pod := web }).kernel.cgroupParams.lookup 42 = none := by
  refine ((removed_all_iff true true [byCgroup ⟨1000, 0⟩ [42], byCgroup ⟨1000, 0⟩ [42, 43]]
    { pod := web } rfl rfl).mpr ⟨?_, ?_⟩).1 42 (by decide)
  · show ∀ k ∈ ([42, 42, 43] : List U64), k ∈ ([42, 43] : List U64) ∨ k ∈ ([] : List U64)
    simp
  · show ∀ k ∈ ([] : List U32), _
    simp

/-- A container restarts, so its cgroup has a new ID; the removal deletes the
new entry and leaves the old one. -/
theorem old_cgroup_left_behind :
    let h := [byCgroup ⟨1000, 0⟩ [42], byCgroup ⟨1000, 0⟩ [43]]
    let m := removePodParams (updates (opened true true) h) { pod := web }
    42 ∈ everWritten (cgroupWrites true true h) web.uid ∧
      m.kernel.cgroupParams.lookup 43 = none ∧
      m.kernel.cgroupParams.lookup 42 = some ⟨1000, 0⟩ := by
  decide

end K8sSched.Agent.UpdateHistory
