import K8sSched.Agent.Bookkeeping
import K8sSched.Agent.PidReuse

/-! # What a removal takes from other pods

`RemovePodParams` of `internal/maps/maps.go` deletes the PIDs recorded for the
pod, and the record is a snapshot: when a recorded process exits and its PID goes
to another pod, whose update writes it, the key stays in both records. The
removal of the first pod then deletes an entry that was written for the second.
As long as no update writes a PID that is recorded for another pod, the record of
a pod only has keys that were last written for it. -/

namespace K8sSched.Agent.RemovalFrame

open K8sSched.Bpf.Params K8sSched.Agent.Pods K8sSched.Agent.MapOps K8sSched.Agent.Bookkeeping
open K8sSched.Agent.CgroupFs K8sSched.Agent.Host K8sSched.Lib.GoMap K8sSched.Lib.Runs

def recordedPIDs (m : Maps) (uid : String) : List U32 := (m.podPIDs.lookup uid).getD []

section

variable (taskParamsOpen cgroupParamsOpen : Bool)

/-- The pod for which a call wrote the PID. -/
def writer (pid : U32) : Event → Option String
  | .updated c _ =>
    if pid ∈ pidKeys taskParamsOpen cgroupParamsOpen c then some c.pod.uid else none
  | .removed _ => none

/-- The pod for which the PID was written last. -/
def lastWriter (log : List Event) (pid : U32) : Option String :=
  log.foldl (fun last e => (writer taskParamsOpen cgroupParamsOpen pid e).or last) none

/-- The most recent write of the PID was made for another, still tracked pod. -/
def Foreign (x : Node × List Event) (uid : String) (pid : U32) : Prop :=
  ∃ owner ∈ lastWriter taskParamsOpen cgroupParamsOpen x.2 pid,
    owner ≠ uid ∧ Tracks x.1.maps owner

instance (x : Node × List Event) (uid : String) (pid : U32) :
    Decidable (Foreign taskParamsOpen cgroupParamsOpen x uid pid) :=
  inferInstanceAs (Decidable (∃ _ ∈ _, _))

/-- A removal leaves the keys that were last written for other tracked pods. -/
def Keeps (x : Node × List Event) : Action → Prop
  | .write =>
    match x.1.call with
    | some (.remove r) => ∀ pid ∈ x.1.maps.kernel.taskParams.keys,
        Foreign taskParamsOpen cgroupParamsOpen x r.pod.uid pid →
          pid ∈ (removePodParams x.1.maps r).kernel.taskParams
    | _ => True
  | _ => True

/-- An update writes no PID that is recorded for another pod, and a removal finds
no PID that was last written for another tracked pod. -/
def Separate (x : Node × List Event) : Action → Prop
  | .write =>
    match x.1.call with
    | some (.update c) => ∀ pid ∈ pidKeys taskParamsOpen cgroupParamsOpen c,
        ∀ uid ∈ x.1.maps.podPIDs.keys, pid ∈ recordedPIDs x.1.maps uid → uid = c.pod.uid
    | some (.remove r) => ∀ pid ∈ r.resolvePodPIDs,
        ¬ Foreign taskParamsOpen cgroupParamsOpen x r.pod.uid pid
    | none => True
  | _ => True

instance : ∀ (x : Node × List Event) (a : Action),
    Decidable (Separate taskParamsOpen cgroupParamsOpen x a)
  | ({ call := some (.update _), .. }, _), .write => List.decidableBAll _ _
  | ({ call := some (.remove _), .. }, _), .write => List.decidableBAll _ _
  | ({ call := none, .. }, _), .write => .isTrue trivial
  | _, .mkdir .. | _, .rmdir .. | _, .start .. | _, .exit .. | _, .migrate .. | _, .find ..
  | _, .checkPID .. | _, .deletePID .. | _, .walkKubepods .. | _, .checkCgroupID ..
  | _, .deleteCgroupID .. => .isTrue trivial

/-- What is recorded for a pod was last written for it. -/
structure Inv (x : Node × List Event) : Prop where
  task : x.1.maps.taskParamsOpen = taskParamsOpen
  cgroup : x.1.maps.cgroupParamsOpen = cgroupParamsOpen
  own : ∀ uid, ∀ pid ∈ recordedPIDs x.1.maps uid,
    lastWriter taskParamsOpen cgroupParamsOpen x.2 pid = some uid

end

/-! ## Records and the last writer -/

variable {taskParamsOpen cgroupParamsOpen : Bool} {s t : Node} {log es : List Event} {a : Action}

theorem lastWriter_concat (log : List Event) (e : Event) (pid : U32) :
    lastWriter taskParamsOpen cgroupParamsOpen (log ++ [e]) pid =
      (writer taskParamsOpen cgroupParamsOpen pid e).or
        (lastWriter taskParamsOpen cgroupParamsOpen log pid) := by
  simp [lastWriter]

/-- An update on the fallback path records what it has written; otherwise the
records stay. -/
theorem recordedPIDs_update (m : Maps) (c : Update) {uid : String} {pid : U32}
    (h : pid ∈ recordedPIDs (updatePodParams m c).1 uid) :
    (uid = c.pod.uid ∧ pid ∈ pidKeys m.taskParamsOpen m.cgroupParamsOpen c) ∨
      pid ∈ recordedPIDs m uid := by
  change pid ∈ ((updatePodParams m c).1.taskLedger.record.lookup uid).getD [] at h
  rw [update_taskLedger] at h
  by_cases hp : m.taskParamsOpen ∧ ¬ c.TakesCgroupPath m.cgroupParamsOpen ∧ c.pod.uid ≠ ""
  · rw [Update.taskWrite, if_pos hp] at h
    change pid ∈ ((m.podPIDs.insert c.pod.uid (succeeded c.pids)).lookup uid).getD [] at h
    by_cases hu : uid = c.pod.uid
    · rw [hu, Finmap.lookup_insert, Option.getD_some] at h
      exact .inl ⟨hu, by rwa [pidKeys, if_pos hp]⟩
    · rw [Finmap.lookup_insert_of_ne _ hu] at h
      exact .inr h
  · rw [Update.taskWrite, if_neg hp] at h
    exact .inr h

theorem recordedPIDs_remove (m : Maps) (r : Removal) {uid : String} {pid : U32}
    (h : pid ∈ recordedPIDs (removePodParams m r) uid) : pid ∈ recordedPIDs m uid := by
  unfold removePodParams at h
  split at h
  · change pid ∈ ((m.podPIDs.erase r.pod.uid).lookup uid).getD [] at h
    by_cases hu : uid = r.pod.uid
    · rw [hu, Finmap.lookup_erase] at h
      cases h
    · rwa [Finmap.lookup_erase_ne hu] at h
  · exact h

theorem mem_podPIDs_of_recorded {m : Maps} {uid : String} {pid : U32}
    (h : pid ∈ recordedPIDs m uid) : uid ∈ m.podPIDs.keys := by
  rw [Finmap.mem_keys]
  by_contra hnot
  rw [recordedPIDs, Finmap.lookup_eq_none.mpr hnot] at h
  cases h

/-- A removal deletes recorded and found PIDs only. -/
theorem mem_remove_of_not {m : Maps} {r : Removal} {pid : U32}
    (hpid : pid ∈ m.kernel.taskParams) (hrecorded : pid ∉ recordedPIDs m r.pod.uid)
    (hfound : pid ∉ r.resolvePodPIDs) : pid ∈ (removePodParams m r).kernel.taskParams := by
  unfold removePodParams
  split
  · refine (mem_eraseAll _ _ _).mpr ⟨hpid, fun hmem => ?_⟩
    rcases List.mem_append.mp (List.mem_of_mem_filter hmem) with h | h
    · exact hrecorded h
    · exact hfound h
  · exact hpid

/-! ## Steps -/

theorem Inv.update (h : Inv taskParamsOpen cgroupParamsOpen (s, log)) {c : Update}
    (hcall : s.call = some (.update c))
    (hok : Separate taskParamsOpen cgroupParamsOpen (s, log) .write) (err : Option String) :
    Inv taskParamsOpen cgroupParamsOpen
      ({ s with maps := (updatePodParams s.maps c).1, call := none }, log ++ [.updated c err]) := by
  refine ⟨(update_taskParamsOpen s.maps c).trans h.task,
    (update_cgroupParamsOpen s.maps c).trans h.cgroup, fun uid pid hpid => ?_⟩
  simp only [Separate, hcall] at hok
  rw [lastWriter_concat, writer]
  have hrecorded := recordedPIDs_update s.maps c hpid
  rw [h.task, h.cgroup] at hrecorded
  split
  · next hwritten =>
    rcases hrecorded with ⟨rfl, -⟩ | hold
    · rfl
    · rw [hok pid hwritten uid (mem_podPIDs_of_recorded hold) hold]
      rfl
  · next hwritten =>
    rcases hrecorded with ⟨-, hnew⟩ | hold
    · exact absurd hnew hwritten
    · exact h.own uid pid hold

theorem Inv.step (h : Inv taskParamsOpen cgroupParamsOpen (s, log))
    (hok : Separate taskParamsOpen cgroupParamsOpen (s, log) a) (hs : Does s a t es) :
    Inv taskParamsOpen cgroupParamsOpen (t, log ++ es) := by
  cases hs with
  | update hcall => exact h.update hcall hok _
  | @remove r hcall =>
    obtain ⟨htask, hcgroup⟩ := apply_open s.maps (.remove r)
    refine ⟨htask.trans h.task, hcgroup.trans h.cgroup, fun uid pid hpid => ?_⟩
    rw [lastWriter_concat]
    exact h.own uid pid (recordedPIDs_remove s.maps r hpid)
  | _ =>
    rw [List.append_nil]
    exact { h with }

theorem Inv.keeps {x : Node × List Event} (h : Inv taskParamsOpen cgroupParamsOpen x)
    (hok : Separate taskParamsOpen cgroupParamsOpen x a) :
    Keeps taskParamsOpen cgroupParamsOpen x a := by
  unfold Keeps
  split
  · split
    · next r hcall =>
      simp only [Separate, hcall] at hok
      intro pid hpid hforeign
      refine mem_remove_of_not (Finmap.mem_keys.mp hpid) (fun hrecorded => ?_)
        fun hfound => hok pid hfound hforeign
      obtain ⟨owner, howner, hne, -⟩ := hforeign
      exact hne (Option.some.inj (howner.symm.trans (h.own _ pid hrecorded)))
    · trivial
  · trivial

/-- Along any list of actions on the node whose steps are separate, every removal
leaves the keys that were last written for other, still tracked pods. -/
theorem removal_keeps_others (tree : CgroupTree) (kernel : ParamMaps)
    (taskParamsOpen cgroupParamsOpen : Bool) {as : List Action}
    (h : AllSteps (logged step) (Separate taskParamsOpen cgroupParamsOpen)
      (boot tree kernel taskParamsOpen cgroupParamsOpen, []) as) :
    AllSteps (logged step) (Keeps taskParamsOpen cgroupParamsOpen)
      (boot tree kernel taskParamsOpen cgroupParamsOpen, []) as := by
  refine AllSteps.imp (I := Inv taskParamsOpen cgroupParamsOpen) ?_ ?_ ⟨rfl, rfl, ?_⟩ h
  · rintro ⟨s, log⟩ a ⟨t, log'⟩ es hI hok hs
    obtain ⟨hs, rfl⟩ := logged_eq_some hs
    exact hI.step hok (step_does hs)
  · exact fun x a hI hok => hI.keeps hok
  · intro uid pid hpid
    cases hpid

def fallbackB (pid : U32) : Update := ⟨podB, some ⟨200, 0⟩, [], [⟨pid, none⟩]⟩

open PidReuse in
/-- The second pod gets another PID. -/
theorem removal_keeps_others_apart :
    AllSteps (logged step) (Keeps true true) (boot customRoot ⟨∅, ∅⟩ true true, [])
      [.start 7 (some "a") customA, .find (.update fallback) { listed := {7} }, .write,
        .exit 7, .start 8 (some "b") customB, .find (.update (fallbackB 8)) { listed := {8} },
        .write, .find (.remove { pod := podA }) { listed := {8} }, .write] :=
  removal_keeps_others customRoot ⟨∅, ∅⟩ true true (by decide)

open PidReuse in
/-- The second pod gets the PID of the first and is updated; the removal of the
first deletes its entry. -/
theorem stripped_entry :
    ∃ s log, exec step (boot customRoot ⟨∅, ∅⟩ true true)
        [.start 7 (some "a") customA, .find (.update fallback) { listed := {7} }, .write,
          .exit 7, .start 7 (some "b") customB, .find (.update (fallbackB 7)) { listed := {7} },
          .write, .find (.remove { pod := podA }) { listed := {7} }] = some (s, log) ∧
      s.call = some (.remove { pod := podA }) ∧
      s.maps.kernel.taskParams.lookup 7 = some ⟨200, 0⟩ ∧
      lastWriter true true log 7 = some "b" ∧ Tracks s.maps "b" ∧
      (removePodParams s.maps { pod := podA }).kernel.taskParams.lookup 7 = none :=
  ⟨_, _, rfl, rfl, by decide, by decide, by decide, by decide⟩

end K8sSched.Agent.RemovalFrame
