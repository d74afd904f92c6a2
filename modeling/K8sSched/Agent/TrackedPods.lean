import K8sSched.Agent.Bookkeeping
import K8sSched.Agent.Host

/-! # The gauge of mapped pods

`TrackedPods` of `internal/maps/maps.go` counts the pods in the two records, and
`k8s_sched_params_mapped` shows it as the number of pods with parameters in the
maps. An update records its pod also when it has written nothing. All states of
a run of updates and removals have the pods recorded that have parameters,
exactly when each update leaves its pod a key and each removal takes the keys of
its pod and nobody else's last one. -/

namespace K8sSched.Agent.TrackedPods

open K8sSched.Bpf.Params K8sSched.Agent.Pods K8sSched.Agent.MapOps K8sSched.Agent.Bookkeeping
open K8sSched.Agent.Host (pidKeys cgroupKeys)
open K8sSched.Lib.GoMap K8sSched.Lib.Runs

def trackedPods (m : Maps) : Nat := (m.podCgroupIDs.keys ∪ m.podPIDs.keys).card

/-! ## Keys of both maps -/

inductive Key
  | cgroup (id : U64)
  | pid (pid : U32)
  deriving DecidableEq

def Present (m : Maps) : Key → Prop
  | .cgroup id => id ∈ m.kernel.cgroupParams
  | .pid pid => pid ∈ m.kernel.taskParams

instance (m : Maps) : ∀ k, Decidable (Present m k)
  | .cgroup _ | .pid _ => inferInstanceAs (Decidable (_ ∈ _))

/-- The keys an update writes. -/
def writtenKeys (m : Maps) (c : Update) : List Key :=
  (cgroupKeys m.taskParamsOpen m.cgroupParamsOpen c).map .cgroup ++
    (pidKeys m.taskParamsOpen m.cgroupParamsOpen c).map .pid

/-- The keys a removal deletes. -/
def deletedKeys (m : Maps) (r : Removal) : List Key :=
  if m.taskParamsOpen then
    (if m.cgroupParamsOpen then
      (((m.podCgroupIDs.lookup r.pod.uid).getD [] ++ r.resolvePodCgroupIDs).filter
        fun id => id ∉ r.failingCgids).map .cgroup
    else []) ++
    (((m.podPIDs.lookup r.pod.uid).getD [] ++ r.resolvePodPIDs).filter
      fun pid => pid ∉ r.failingPids).map .pid
  else []

theorem present_update (m : Maps) (c : Update) (k : Key) :
    Present (updatePodParams m c).1 k ↔ Present m k ∨ k ∈ writtenKeys m c := by
  cases k with
  | cgroup id =>
    have h := Host.lookup_apply m (.update c) id
    simp only [Host.Call.apply, Host.Call.effect] at h
    simp only [Present, writtenKeys, Finmap.mem_iff, h]
    split
    · next hk => simp [hk]
    · next hk => simp [hk]
  | pid pid =>
    simp only [Present, writtenKeys, Finmap.mem_iff, Host.lookup_update_pid]
    split
    · next hk => simp [hk]
    · next hk => simp [hk]

theorem present_remove (m : Maps) (r : Removal) (k : Key) :
    Present (removePodParams m r) k ↔ Present m k ∧ k ∉ deletedKeys m r := by
  cases hopen : m.taskParamsOpen with
  | false => simp [removePodParams, deletedKeys, hopen]
  | true =>
    cases k with
    | cgroup id =>
      cases hcg : m.cgroupParamsOpen with
      | false => simp [Present, removePodParams, deletedKeys, hopen, hcg]
      | true => simp [Present, removePodParams, deletedKeys, hopen, hcg, deleteAll, mem_eraseAll]
    | pid pid => simp [Present, removePodParams, deletedKeys, hopen, deleteAll, mem_eraseAll]

/-! ## Runs -/

inductive Op
  | update (c : Update)
  | remove (r : Removal)

/-- The keys a call wrote for a pod, and those it deleted. -/
inductive Event
  | wrote (uid : String) (keys : List Key)
  | deleted (keys : List Key)

/-- Calls for pods with a UID. -/
def step (m : Maps) : Op → Option (Maps × List Event)
  | .update c =>
    if c.pod.uid = "" then none
    else some ((updatePodParams m c).1, [.wrote c.pod.uid (writtenKeys m c)])
  | .remove r =>
    if r.pod.uid = "" then none
    else some (removePodParams m r, [.deleted (deletedKeys m r)])

inductive Does (m : Maps) : Op → Maps → List Event → Prop
  | update {c : Update} (hu : c.pod.uid ≠ "") :
      Does m (.update c) (updatePodParams m c).1 [.wrote c.pod.uid (writtenKeys m c)]
  | remove {r : Removal} : Does m (.remove r) (removePodParams m r) [.deleted (deletedKeys m r)]

theorem step_does {m m' : Maps} {op : Op} {es : List Event} (h : step m op = some (m', es)) :
    Does m op m' es := by
  cases op with
  | update c =>
    simp only [step] at h
    split at h
    · cases h
    · next hu => cases h; exact .update hu
  | remove r =>
    simp only [step] at h
    split at h
    · cases h
    · cases h; exact .remove

/-- The maps opened over what they contain. -/
def start (kernel : ParamMaps) (taskParamsOpen cgroupParamsOpen : Bool) : Maps :=
  { opened taskParamsOpen cgroupParamsOpen with kernel := kernel }

def Event.Wrote (uid : String) (k : Key) : Event → Prop
  | .wrote u keys => u = uid ∧ k ∈ keys
  | .deleted _ => False

def Event.Deleted (k : Key) : Event → Prop
  | .wrote _ _ => False
  | .deleted keys => k ∈ keys

def Event.uids : Event → List String
  | .wrote uid _ => [uid]
  | .deleted _ => []

def Event.keys : Event → List Key
  | .wrote _ keys => keys
  | .deleted _ => []

instance (uid : String) (k : Key) : DecidablePred (Event.Wrote uid k)
  | .wrote _ _ => inferInstanceAs (Decidable (_ ∧ _))
  | .deleted _ => inferInstanceAs (Decidable False)

instance (k : Key) : DecidablePred (Event.Deleted k)
  | .wrote _ _ => inferInstanceAs (Decidable False)
  | .deleted _ => inferInstanceAs (Decidable (_ ∈ _))

/-- The key was written for the pod and not deleted since. -/
def Holds (log : List Event) (uid : String) (k : Key) : Prop :=
  Since (Event.Wrote uid k) (Event.Deleted k) log

instance (log : List Event) (uid : String) (k : Key) : Decidable (Holds log uid k) :=
  inferInstanceAs (Decidable (Since _ _ _))

/-- At least one such key is in the maps. -/
def HasParams (x : Maps × List Event) (uid : String) : Prop :=
  ∃ k ∈ x.2.flatMap Event.keys, Holds x.2 uid k ∧ Present x.1 k

instance (x : Maps × List Event) (uid : String) : Decidable (HasParams x uid) :=
  inferInstanceAs (Decidable (∃ _ ∈ _, _))

/-- The pods with parameters in the maps. -/
def mappedPods (x : Maps × List Event) : Finset String :=
  (x.2.flatMap Event.uids).toFinset.filter (HasParams x)

/-- An update writes a key, or an earlier one of its pod is still there. A
removal deletes all keys of its pod that are still there, and leaves every other
pod one. -/
def Exact (x : Maps × List Event) : Op → Prop
  | .update c => x.1.taskParamsOpen → writtenKeys x.1 c ≠ [] ∨ HasParams x c.pod.uid
  | .remove r => x.1.taskParamsOpen →
      (∀ k ∈ x.2.flatMap Event.keys, Holds x.2 r.pod.uid k → k ∈ deletedKeys x.1 r) ∧
      ∀ uid ∈ mappedPods x, uid ≠ r.pod.uid →
        ∃ k ∈ x.2.flatMap Event.keys, Holds x.2 uid k ∧ k ∉ deletedKeys x.1 r

instance (x : Maps × List Event) : DecidablePred (Exact x)
  | .update _ => inferInstanceAs (Decidable (_ → _))
  | .remove _ => inferInstanceAs (Decidable (_ → _))

/-- The pods in the records are those with parameters in the maps. -/
def Agrees (x : Maps × List Event) : Prop := ∀ uid, Tracks x.1 uid ↔ HasParams x uid

/-! ## What a call changes -/

section

variable {m : Maps} {log : List Event}

theorem holds_wrote (u uid : String) (keys : List Key) (k : Key) :
    Holds (log ++ [.wrote u keys]) uid k ↔ u = uid ∧ k ∈ keys ∨ Holds log uid k := by
  rw [Holds, since_concat]
  simp [Event.Wrote, Event.Deleted, Holds]

theorem holds_deleted (uid : String) (keys : List Key) (k : Key) :
    Holds (log ++ [.deleted keys]) uid k ↔ k ∉ keys ∧ Holds log uid k := by
  rw [Holds, since_concat]
  simp [Event.Wrote, Event.Deleted, Holds]

theorem Holds.mem {uid : String} {k : Key} (h : Holds log uid k) :
    uid ∈ log.flatMap Event.uids ∧ k ∈ log.flatMap Event.keys := by
  obtain ⟨pre, e, post, rfl, he, -⟩ := h
  cases e with
  | deleted keys => cases he
  | wrote u keys =>
    obtain ⟨rfl, hk⟩ := he
    simp [Event.uids, Event.keys, hk]

theorem mem_mappedPods {x : Maps × List Event} {uid : String} :
    uid ∈ mappedPods x ↔ HasParams x uid := by
  refine Finset.mem_filter.trans (and_iff_right_of_imp ?_)
  rintro ⟨k, -, hk, -⟩
  exact List.mem_toFinset.mpr hk.mem.1

/-- The keys of pods are in the maps. -/
def Inv (x : Maps × List Event) : Prop := ∀ uid k, Holds x.2 uid k → Present x.1 k

theorem Inv.hasParams_iff {x : Maps × List Event} (h : Inv x) (uid : String) :
    HasParams x uid ↔ ∃ k, Holds x.2 uid k := by
  constructor
  · rintro ⟨k, -, hk, -⟩
    exact ⟨k, hk⟩
  · rintro ⟨k, hk⟩
    exact ⟨k, hk.mem.2, hk, h uid k hk⟩

theorem Inv.update (h : Inv (m, log)) (c : Update) :
    Inv ((updatePodParams m c).1, log ++ [.wrote c.pod.uid (writtenKeys m c)]) := by
  intro uid k hk
  rw [present_update]
  rcases (holds_wrote _ _ _ _).mp hk with ⟨-, hk⟩ | hk
  · exact .inr hk
  · exact .inl (h uid k hk)

theorem Inv.remove (h : Inv (m, log)) (r : Removal) :
    Inv (removePodParams m r, log ++ [.deleted (deletedKeys m r)]) := by
  intro uid k hk
  obtain ⟨hnot, hk⟩ := (holds_deleted _ _ _).mp hk
  exact (present_remove m r k).mpr ⟨h uid k hk, hnot⟩

theorem tracks_updated (m : Maps) {c : Update} (hu : c.pod.uid ≠ "") :
    Tracks (updatePodParams m c).1 c.pod.uid ↔ Tracks m c.pod.uid ∨ m.taskParamsOpen := by
  cases hopen : m.taskParamsOpen with
  | false => simp [updatePodParams_closed m c hopen]
  | true =>
    by_cases hp : c.TakesCgroupPath m.cgroupParamsOpen
    · rw [updatePodParams_cgroup m c hopen hp]
      simp [Tracks]
    · rw [updatePodParams_task m c hopen hp hu]
      simp [Tracks]

theorem writtenKeys_closed {c : Update} (h : m.taskParamsOpen = false) :
    writtenKeys m c = [] := by
  simp [writtenKeys, cgroupKeys, pidKeys, h]

theorem agrees_update (hI : Inv (m, log)) (hP : Agrees (m, log)) {c : Update}
    (hu : c.pod.uid ≠ "") :
    Agrees ((updatePodParams m c).1, log ++ [.wrote c.pod.uid (writtenKeys m c)]) ↔
      Exact (m, log) (.update c) := by
  have hI' := hI.update c
  have hne : (∃ k, k ∈ writtenKeys m c) ↔ writtenKeys m c ≠ [] :=
    ⟨fun ⟨_, hk⟩ => List.ne_nil_of_mem hk, List.exists_mem_of_ne_nil _⟩
  have hparams : ∀ uid, HasParams ((updatePodParams m c).1,
      log ++ [.wrote c.pod.uid (writtenKeys m c)]) uid ↔
      c.pod.uid = uid ∧ writtenKeys m c ≠ [] ∨ HasParams (m, log) uid := by
    intro uid
    rw [hI'.hasParams_iff, hI.hasParams_iff]
    simp only [holds_wrote, exists_or, exists_and_left, hne]
  constructor
  · intro h hopen
    have htracks := (tracks_updated m hu).mpr (.inr hopen)
    exact ((hparams _).mp ((h c.pod.uid).mp htracks)).imp_left And.right
  · intro h uid
    rw [hparams]
    by_cases huid : uid = c.pod.uid
    · subst huid
      rw [tracks_updated m hu, ← hP]
      constructor
      · rintro (htracks | hopen)
        · exact .inr htracks
        · exact (h hopen).imp (fun hwritten => ⟨rfl, hwritten⟩) (hP _).mpr
      · rintro (⟨-, hwritten⟩ | htracks)
        · -- a call that writes has found the maps open
          cases hopen : m.taskParamsOpen with
          | false => exact absurd (writtenKeys_closed hopen) hwritten
          | true => exact .inr rfl
        · exact .inl htracks
    · rw [tracks_update m c huid, hP]
      simp [Ne.symm huid]

theorem agrees_remove (hI : Inv (m, log)) (hP : Agrees (m, log)) (r : Removal) :
    Agrees (removePodParams m r, log ++ [.deleted (deletedKeys m r)]) ↔
      Exact (m, log) (.remove r) := by
  have hI' := hI.remove r
  have hparams : ∀ uid, HasParams (removePodParams m r,
      log ++ [.deleted (deletedKeys m r)]) uid ↔
      ∃ k, Holds log uid k ∧ k ∉ deletedKeys m r := by
    intro uid
    rw [hI'.hasParams_iff]
    simp only [holds_deleted, and_comm]
  cases hopen : m.taskParamsOpen with
  | false =>
    -- nothing is deleted and nothing forgotten
    refine iff_of_true (fun uid => ?_) (fun h => absurd h (by simp [hopen]))
    rw [tracks_remove, hparams, hP, hI.hasParams_iff]
    simp [hopen, deletedKeys]
  | true =>
    have htracks : ∀ uid, Tracks (removePodParams m r) uid ↔
        HasParams (m, log) uid ∧ uid ≠ r.pod.uid := by
      intro uid
      rw [tracks_remove, hP]
      simp [hopen]
    constructor
    · intro h _
      refine ⟨fun k _ hk => ?_, fun uid hhas huid => ?_⟩
      · by_contra hnot
        have hstill := (h r.pod.uid).mpr ((hparams _).mpr ⟨k, hk, hnot⟩)
        exact ((htracks _).mp hstill).2 rfl
      · have hstill := (h uid).mp ((htracks uid).mpr ⟨mem_mappedPods.mp hhas, huid⟩)
        obtain ⟨k, hk, hnot⟩ := (hparams uid).mp hstill
        exact ⟨k, hk.mem.2, hk, hnot⟩
    · intro h uid
      obtain ⟨hown, hothers⟩ := h hopen
      rw [htracks, hparams]
      constructor
      · rintro ⟨hhas, huid⟩
        obtain ⟨k, -, hk⟩ := hothers uid (mem_mappedPods.mpr hhas) huid
        exact ⟨k, hk⟩
      · rintro ⟨k, hk, hnot⟩
        refine ⟨(hI.hasParams_iff uid).mpr ⟨k, hk⟩, ?_⟩
        rintro rfl
        exact hnot (hown k hk.mem.2 hk)

end

theorem start_inv (kernel : ParamMaps) (taskParamsOpen cgroupParamsOpen : Bool) :
    Inv (start kernel taskParamsOpen cgroupParamsOpen, []) := by
  intro uid k h
  exact absurd h (not_since_nil _ _)

theorem start_agrees (kernel : ParamMaps) (taskParamsOpen cgroupParamsOpen : Bool) :
    Agrees (start kernel taskParamsOpen cgroupParamsOpen, []) := by
  intro uid
  rw [(start_inv kernel taskParamsOpen cgroupParamsOpen).hasParams_iff]
  refine iff_of_false ?_ ?_
  · rintro (h | h)
    · exact Finmap.notMem_empty h
    · exact Finmap.notMem_empty h
  · intro h
    obtain ⟨k, hk⟩ := h
    exact not_since_nil _ _ hk

/-- The records are right in all states a list of calls leads through exactly
when all the calls are exact. -/
theorem agrees_iff_exact (kernel : ParamMaps) (taskParamsOpen cgroupParamsOpen : Bool)
    (ops : List Op) :
    AllStates (logged step) Agrees (start kernel taskParamsOpen cgroupParamsOpen, []) ops ↔
      AllSteps (logged step) Exact (start kernel taskParamsOpen cgroupParamsOpen, []) ops := by
  refine allStates_iff_allSteps (I := Inv) ?_ ?_ (start_inv _ _ _) (start_agrees _ _ _) ops
  · rintro ⟨m, log⟩ a ⟨m', log'⟩ es hI hs
    obtain ⟨hs, rfl⟩ := logged_eq_some hs
    cases step_does hs with
    | update hu => exact hI.update _
    | remove => exact hI.remove _
  · rintro ⟨m, log⟩ a ⟨m', log'⟩ es hI hP hs
    obtain ⟨hs, rfl⟩ := logged_eq_some hs
    cases step_does hs with
    | update hu => exact agrees_update hI hP hu
    | remove => exact agrees_remove hI hP _

theorem Agrees.count {x : Maps × List Event} (h : Agrees x) :
    trackedPods x.1 = (mappedPods x).card := by
  refine congrArg Finset.card (Finset.ext fun uid => ?_)
  rw [mem_mappedPods, ← h uid, Finset.mem_union, Finmap.mem_keys, Finmap.mem_keys]
  rfl

/-- In all states a list of calls leads through the recorded pods are those with
parameters in the maps, exactly when all calls are exact; and then `TrackedPods`
is their number in all these states. -/
theorem tracked_pods_of_exact (kernel : ParamMaps) (taskParamsOpen cgroupParamsOpen : Bool)
    (ops : List Op) :
    (AllStates (logged step) Agrees (start kernel taskParamsOpen cgroupParamsOpen, []) ops ↔
      AllSteps (logged step) Exact (start kernel taskParamsOpen cgroupParamsOpen, []) ops) ∧
    (AllSteps (logged step) Exact (start kernel taskParamsOpen cgroupParamsOpen, []) ops →
      AllStates (logged step) (fun x => trackedPods x.1 = (mappedPods x).card)
        (start kernel taskParamsOpen cgroupParamsOpen, []) ops) := by
  have hagrees := agrees_iff_exact kernel taskParamsOpen cgroupParamsOpen ops
  exact ⟨hagrees, fun h => (hagrees.mpr h).mono fun _ => Agrees.count⟩

theorem tracked_pods_of_exact_web :
    AllStates (logged step) (fun x => trackedPods x.1 = (mappedPods x).card)
      (start ⟨∅, ∅⟩ true true, [])
      [.update ⟨web, some ⟨9000, 0⟩, [⟨42, none⟩], []⟩,
        .update ⟨web, some ⟨9000, 0⟩, [], [⟨7, some "no space"⟩]⟩,
        .remove { pod := web, pids := [7] }] :=
  (tracked_pods_of_exact _ _ _ _).2 (by decide)

/-- Neither a cgroup nor a process of the pod is found: nothing is written, and
the pod is counted. -/
theorem counted_without_params :
    (exec (logged step) (start ⟨∅, ∅⟩ true true, [])
        [.update ⟨web, some ⟨9000, 0⟩, [], []⟩]).map
      (fun r => (trackedPods r.1.1, (mappedPods r.1).card)) = some (1, 0) := by
  decide

end K8sSched.Agent.TrackedPods
