import K8sSched.Agent.Pods
import K8sSched.Lib.WriteRecord

/-! # The agent's access to the parameter maps

`UpdatePodParams` and `RemovePodParams` of `internal/maps/maps.go`. What a call
finds in the file system (the cgroup IDs and PIDs of the pod) and how each of
its map operations ends are part of the call. Each of the two channels, cgroup
IDs and PIDs, is a ledger of its own: an update is a write to at most one of
them. -/

namespace K8sSched.Agent.MapOps

open K8sSched.Bpf.Params K8sSched.Agent.Pods K8sSched.Lib.GoMap K8sSched.Lib.WriteRecord

/-- `Maps`: the contents of the two maps, whether the handles are open, and the
keys written per pod. -/
structure Maps where
  kernel : ParamMaps
  taskParamsOpen : Bool
  cgroupParamsOpen : Bool
  podPIDs : Finmap fun _ : String => List U32
  podCgroupIDs : Finmap fun _ : String => List U64
  deriving DecidableEq

/-- `New`, then `Open` on maps the loader has just pinned; `cgroup_params` is
missing with an older BPF object. -/
def opened (taskParamsOpen cgroupParamsOpen : Bool) : Maps :=
  ⟨⟨∅, ∅⟩, taskParamsOpen, cgroupParamsOpen, ∅, ∅⟩

/-- A call of `UpdatePodParams`, with the cgroup IDs and PIDs found for the pod
and the outcome of the `Put` of each. -/
structure Update where
  pod : Pod
  resolved : Option TaskParams
  cgids : List (Put U64 String) := []
  pids : List (Put U32 String) := []

/-- A call of `RemovePodParams`, with the cgroup IDs and PIDs still found for
the pod and the keys whose `Delete` fails. -/
structure Removal where
  pod : Pod
  cgids : List U64 := []
  pids : List U32 := []
  failingCgids : List U64 := []
  failingPids : List U32 := []

/-- The resolvers find nothing for a pod without UID. -/
def resolveFor {α : Type} (uid : String) (found : List α) : List α :=
  if uid = "" then [] else found

def Update.resolvePodCgroupIDs (c : Update) : List (Put U64 String) := resolveFor c.pod.uid c.cgids
def Update.resolvePodPIDs (c : Update) : List (Put U32 String) := resolveFor c.pod.uid c.pids
def Removal.resolvePodCgroupIDs (r : Removal) : List U64 := resolveFor r.pod.uid r.cgids
def Removal.resolvePodPIDs (r : Removal) : List U32 := resolveFor r.pod.uid r.pids

def Update.params (c : Update) : TaskParams := c.resolved.getD (extractSchedulingParams c.pod)

def putCgroupError (cgid : U64) (err : String) : String :=
  "put cgroup " ++ toString cgid.toNat ++ ": " ++ err

/-- The PID is printed as the `int32` it was read as. -/
def putPidError (pid : U32) (err : String) : String :=
  "put pid " ++ toString pid.toInt ++ ": " ++ err

def writeCgroupParams (m : Maps) (cgids : List (Put U64 String)) (tp : TaskParams) :
    PutState U64 TaskParams String :=
  putAll putCgroupError tp m.kernel.cgroupParams cgids

/-- The written keys are remembered for pods with a UID. -/
def remember {κ : Type} (record : Finmap fun _ : String => List κ) (uid : String)
    (written : List κ) : Finmap fun _ : String => List κ :=
  if uid ≠ "" then record.insert uid written else record

/-- The new maps and the first write error. -/
def updatePodParams (m : Maps) (c : Update) : Maps × Option String :=
  if m.taskParamsOpen then
    if m.cgroupParamsOpen ∧ c.resolvePodCgroupIDs ≠ [] then
      let w := writeCgroupParams m c.resolvePodCgroupIDs c.params
      ({ m with
          kernel := { m.kernel with cgroupParams := w.map }
          podCgroupIDs := remember m.podCgroupIDs c.pod.uid w.written }, w.firstErr)
    else
      let w := putAll putPidError c.params m.kernel.taskParams c.resolvePodPIDs
      ({ m with
          kernel := { m.kernel with taskParams := w.map }
          podPIDs := remember m.podPIDs c.pod.uid w.written }, w.firstErr)
  else (m, none)

/-- The deletions are best effort: a key whose `Delete` fails stays. -/
def deleteAll {κ : Type} [DecidableEq κ] (map : Finmap fun _ : κ => TaskParams)
    (keys failing : List κ) : Finmap fun _ : κ => TaskParams :=
  eraseAll map (keys.filter fun k => k ∉ failing)

def removePodParams (m : Maps) (r : Removal) : Maps :=
  if m.taskParamsOpen then
    let recordedPIDs := (m.podPIDs.lookup r.pod.uid).getD []
    let recordedCgIDs := (m.podCgroupIDs.lookup r.pod.uid).getD []
    { m with
      kernel :=
        { taskParams := deleteAll m.kernel.taskParams (recordedPIDs ++ r.resolvePodPIDs)
            r.failingPids
          cgroupParams :=
            if m.cgroupParamsOpen then
              deleteAll m.kernel.cgroupParams (recordedCgIDs ++ r.resolvePodCgroupIDs)
                r.failingCgids
            else m.kernel.cgroupParams }
      podPIDs := m.podPIDs.erase r.pod.uid
      podCgroupIDs := m.podCgroupIDs.erase r.pod.uid }
  else m

/-- A history of updates. -/
def updates (m : Maps) (h : List Update) : Maps := h.foldl (fun m c => (updatePodParams m c).1) m

/-! ## The two channels -/

def Maps.cgroupLedger (m : Maps) : Ledger String U64 TaskParams :=
  ⟨m.kernel.cgroupParams, m.podCgroupIDs⟩

def Maps.taskLedger (m : Maps) : Ledger String U32 TaskParams := ⟨m.kernel.taskParams, m.podPIDs⟩

/-- The cgroup path is taken when the cgroup map is open and an ID was found. -/
def Update.TakesCgroupPath (cgroupParamsOpen : Bool) (c : Update) : Prop :=
  cgroupParamsOpen ∧ c.resolvePodCgroupIDs ≠ []

instance (b : Bool) (c : Update) : Decidable (c.TakesCgroupPath b) :=
  inferInstanceAs (Decidable (_ ∧ _))

/-- What an update writes to the cgroup channel. -/
def Update.cgroupWrite (taskParamsOpen cgroupParamsOpen : Bool) (c : Update) :
    Option (Write String U64 TaskParams) :=
  if taskParamsOpen ∧ c.TakesCgroupPath cgroupParamsOpen then
    some ⟨c.pod.uid, c.params, succeeded c.cgids⟩
  else none

/-- What an update writes to the PID channel. -/
def Update.taskWrite (taskParamsOpen cgroupParamsOpen : Bool) (c : Update) :
    Option (Write String U32 TaskParams) :=
  if taskParamsOpen ∧ ¬ c.TakesCgroupPath cgroupParamsOpen ∧ c.pod.uid ≠ "" then
    some ⟨c.pod.uid, c.params, succeeded c.pids⟩
  else none

theorem resolveFor_of_ne {α : Type} {uid : String} (h : uid ≠ "") (found : List α) :
    resolveFor uid found = found := if_neg h

/-- Nothing is found without a UID, so the cgroup path has one. -/
theorem Update.TakesCgroupPath.uid_ne {b : Bool} {c : Update} (h : c.TakesCgroupPath b) :
    c.pod.uid ≠ "" := fun h0 => h.2 (if_pos h0)

section Update

variable (m : Maps) (c : Update)

theorem updatePodParams_closed (h : m.taskParamsOpen = false) :
    updatePodParams m c = (m, none) := by
  simp [updatePodParams, h]

theorem updatePodParams_cgroup (h : m.taskParamsOpen) (hp : c.TakesCgroupPath m.cgroupParamsOpen) :
    updatePodParams m c =
      ({ m with
          kernel := { m.kernel with
            cgroupParams := insertAll m.kernel.cgroupParams (succeeded c.cgids) c.params }
          podCgroupIDs := m.podCgroupIDs.insert c.pod.uid (succeeded c.cgids) },
        (writeCgroupParams m c.cgids c.params).firstErr) := by
  have hr : c.resolvePodCgroupIDs = c.cgids := resolveFor_of_ne hp.uid_ne _
  have hp' : m.cgroupParamsOpen ∧ c.cgids ≠ [] := hr ▸ hp
  simp only [updatePodParams, h, hr, hp', if_true, and_self, remember, hp.uid_ne, ne_eq,
    not_false_eq_true, writeCgroupParams, putAll_map, putAll_written]

theorem updatePodParams_task (h : m.taskParamsOpen)
    (hp : ¬ c.TakesCgroupPath m.cgroupParamsOpen) (hu : c.pod.uid ≠ "") :
    updatePodParams m c =
      ({ m with
          kernel := { m.kernel with
            taskParams := insertAll m.kernel.taskParams (succeeded c.pids) c.params }
          podPIDs := m.podPIDs.insert c.pod.uid (succeeded c.pids) },
        (putAll putPidError c.params m.kernel.taskParams c.pids).firstErr) := by
  have hr : c.resolvePodPIDs = c.pids := resolveFor_of_ne hu _
  have hp' : ¬ (m.cgroupParamsOpen ∧ c.resolvePodCgroupIDs ≠ []) := hp
  simp only [updatePodParams, h, hr, hp', if_true, if_false, remember, hu, ne_eq,
    not_false_eq_true, putAll_map, putAll_written]

theorem updatePodParams_anonymous (hu : c.pod.uid = "") : updatePodParams m c = (m, none) := by
  have hg : c.resolvePodCgroupIDs = [] := if_pos hu
  have hr : c.resolvePodPIDs = [] := if_pos hu
  simp [updatePodParams, hg, hr, hu, remember, putAll]

theorem update_taskParamsOpen : (updatePodParams m c).1.taskParamsOpen = m.taskParamsOpen := by
  simp only [updatePodParams]
  split <;> [split; skip] <;> rfl

theorem update_cgroupParamsOpen :
    (updatePodParams m c).1.cgroupParamsOpen = m.cgroupParamsOpen := by
  simp only [updatePodParams]
  split <;> [split; skip] <;> rfl

/-- On the cgroup channel an update is its cgroup write. -/
theorem update_cgroupLedger :
    (updatePodParams m c).1.cgroupLedger =
      m.cgroupLedger.run (c.cgroupWrite m.taskParamsOpen m.cgroupParamsOpen).toList := by
  cases h : m.taskParamsOpen with
  | false =>
    rw [updatePodParams_closed m c h]
    simp [Update.cgroupWrite, Ledger.run]
  | true =>
    by_cases hp : c.TakesCgroupPath m.cgroupParamsOpen
    · rw [updatePodParams_cgroup m c h hp]
      simp [Update.cgroupWrite, hp, Ledger.run, Ledger.write, Maps.cgroupLedger]
    · by_cases hu : c.pod.uid = ""
      · rw [updatePodParams_anonymous m c hu]
        simp [Update.cgroupWrite, hp, Ledger.run]
      · rw [updatePodParams_task m c h hp hu]
        simp [Update.cgroupWrite, hp, Ledger.run, Maps.cgroupLedger]

/-- On the PID channel an update is its PID write. -/
theorem update_taskLedger :
    (updatePodParams m c).1.taskLedger =
      m.taskLedger.run (c.taskWrite m.taskParamsOpen m.cgroupParamsOpen).toList := by
  cases h : m.taskParamsOpen with
  | false =>
    rw [updatePodParams_closed m c h]
    simp [Update.taskWrite, Ledger.run]
  | true =>
    by_cases hp : c.TakesCgroupPath m.cgroupParamsOpen
    · rw [updatePodParams_cgroup m c h hp]
      simp [Update.taskWrite, hp, Ledger.run, Maps.taskLedger]
    · by_cases hu : c.pod.uid = ""
      · rw [updatePodParams_anonymous m c hu]
        simp [Update.taskWrite, hu, Ledger.run]
      · rw [updatePodParams_task m c h hp hu]
        simp [Update.taskWrite, hp, hu, Ledger.run, Ledger.write, Maps.taskLedger]

end Update

/-! ## Histories -/

section Updates

variable (m : Maps) (h : List Update)

theorem updates_concat (c : Update) :
    updates m (h ++ [c]) = (updatePodParams (updates m h) c).1 := by
  simp [updates]

theorem updates_open :
    (updates m h).taskParamsOpen = m.taskParamsOpen ∧
      (updates m h).cgroupParamsOpen = m.cgroupParamsOpen := by
  induction h using List.reverseRecOn with
  | nil => exact ⟨rfl, rfl⟩
  | append_singleton h c ih =>
    rw [updates_concat, update_taskParamsOpen, update_cgroupParamsOpen]
    exact ih

/-- A history of updates is, on a channel, the history of its writes there. -/
theorem updates_ledger {κ : Type} [DecidableEq κ] {L : Maps → Ledger String κ TaskParams}
    {W : Bool → Bool → Update → Option (Write String κ TaskParams)}
    (hstep : ∀ m c, L (updatePodParams m c).1 =
      (L m).run (W m.taskParamsOpen m.cgroupParamsOpen c).toList) :
    L (updates m h) = (L m).run (h.filterMap (W m.taskParamsOpen m.cgroupParamsOpen)) := by
  induction h using List.reverseRecOn with
  | nil => rfl
  | append_singleton h c ih =>
    obtain ⟨htask, hcgroup⟩ := updates_open m h
    have hlast : [c].filterMap (W m.taskParamsOpen m.cgroupParamsOpen) =
        (W m.taskParamsOpen m.cgroupParamsOpen c).toList := by
      cases hw : W m.taskParamsOpen m.cgroupParamsOpen c <;> simp [hw]
    rw [updates_concat, hstep, ih, htask, hcgroup, List.filterMap_append, hlast,
      Ledger.run_append]

end Updates

section Opened

variable (taskParamsOpen cgroupParamsOpen : Bool) (h : List Update)

theorem opened_cgroupLedger :
    (updates (opened taskParamsOpen cgroupParamsOpen) h).cgroupLedger =
      Ledger.empty.run (h.filterMap (Update.cgroupWrite taskParamsOpen cgroupParamsOpen)) :=
  updates_ledger _ h update_cgroupLedger

theorem opened_taskLedger :
    (updates (opened taskParamsOpen cgroupParamsOpen) h).taskLedger =
      Ledger.empty.run (h.filterMap (Update.taskWrite taskParamsOpen cgroupParamsOpen)) :=
  updates_ledger _ h update_taskLedger

end Opened

/-! ## Removal -/

section Remove

variable {m : Maps} {r : Removal}

theorem remove_cgroupLedger (htask : m.taskParamsOpen) (hcgroup : m.cgroupParamsOpen)
    (hdel : r.failingCgids = []) :
    (removePodParams m r).cgroupLedger = m.cgroupLedger.remove r.pod.uid r.resolvePodCgroupIDs := by
  simp [removePodParams, htask, hcgroup, hdel, deleteAll, Maps.cgroupLedger, Ledger.remove,
    Ledger.recorded]

theorem remove_taskLedger (htask : m.taskParamsOpen) (hdel : r.failingPids = []) :
    (removePodParams m r).taskLedger = m.taskLedger.remove r.pod.uid r.resolvePodPIDs := by
  simp [removePodParams, htask, hdel, deleteAll, Maps.taskLedger, Ledger.remove, Ledger.recorded]

end Remove

end K8sSched.Agent.MapOps
