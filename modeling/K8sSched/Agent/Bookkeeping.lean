import K8sSched.Agent.Watcher

/-! # The keys recorded per pod

`podCgroupIDs` and `podPIDs` hold the keys written for a pod until its removal.
Removals go by the UID of the object in the notification: when an update brings
a pod of the same name under another UID, the deletion of the old pod having
been missed, nothing removes what is recorded for the old UID. -/

namespace K8sSched.Agent.Bookkeeping

open K8sSched.Agent.Pods K8sSched.Agent.MapOps K8sSched.Agent.Policies K8sSched.Agent.Watcher
open K8sSched.Lib.GoMap K8sSched.Lib.Runs

variable {σ : Type}

/-- A pod `TrackedPods` counts: its UID is in one of the two records. -/
def Tracks (m : Maps) (uid : String) : Prop := uid ∈ m.podCgroupIDs ∨ uid ∈ m.podPIDs

instance (m : Maps) (uid : String) : Decidable (Tracks m uid) :=
  inferInstanceAs (Decidable (_ ∨ _))

/-- A pod of the informer's store has this UID. -/
def Present (a : AgentState σ) (uid : String) : Prop :=
  ∃ key ∈ a.pods.keys, (a.pods.lookup key).map Pod.uid = some uid

instance (a : AgentState σ) (uid : String) : Decidable (Present a uid) :=
  inferInstanceAs (Decidable (∃ _ ∈ _, _))

/-- Every recorded UID is that of a pod in the store. -/
def OnlyExisting (a : AgentState σ) : Prop := ∀ uid, Tracks a.mapOps uid → Present a uid

/-- The stored pod that a notification replaces or deletes is not left behind in
the records: it has the UID of the notification, or is not recorded, or another
stored pod has its UID. -/
def Released (a : AgentState σ) (pod : Pod) : Prop :=
  ∀ old ∈ a.pods.lookup (keyOf pod), old.uid ≠ pod.uid → Tracks a.mapOps old.uid →
    ∃ key ∈ a.pods.keys, key ≠ keyOf pod ∧ (a.pods.lookup key).map Pod.uid = some old.uid

instance (a : AgentState σ) (pod : Pod) : Decidable (Released a pod) :=
  inferInstanceAs (Decidable (∀ _ ∈ _, _))

def Replaces (a : AgentState σ) : Notification σ → Prop
  | .podUpdate pod _ => Released a pod
  | .podDelete pod _ => Released a pod
  | _ => True

/-! ## What a call does to the records -/

theorem tracks_remember {κ : Type} (record : Finmap fun _ : String => List κ) {uid u : String}
    (hu : u ≠ uid) (written : List κ) : u ∈ remember record uid written ↔ u ∈ record := by
  unfold remember
  split
  · simp [Finmap.mem_insert, hu]
  · rfl

theorem tracks_update (m : Maps) (c : Update) {uid : String} (hu : uid ≠ c.pod.uid) :
    Tracks (updatePodParams m c).1 uid ↔ Tracks m uid := by
  simp only [updatePodParams]
  split
  · split
    · exact or_congr_left (tracks_remember _ hu _)
    · exact or_congr_right (tracks_remember _ hu _)
  · rfl

theorem tracks_remove (m : Maps) (r : Removal) {uid : String} :
    Tracks (removePodParams m r) uid ↔
      Tracks m uid ∧ (m.taskParamsOpen → uid ≠ r.pod.uid) := by
  unfold removePodParams Tracks
  split
  · next hopen => simp only [Finmap.mem_erase, hopen, true_implies]; tauto
  · next hopen => simp [hopen]

theorem remove_taskParamsOpen (m : Maps) (r : Removal) :
    (removePodParams m r).taskParamsOpen = m.taskParamsOpen := by
  unfold removePodParams
  split <;> rfl

/-- With closed maps nothing is recorded. -/
def Wf (m : Maps) : Prop := m.taskParamsOpen = false → ∀ uid, ¬ Tracks m uid

theorem wf_opened (taskParamsOpen cgroupParamsOpen : Bool) :
    Wf (opened taskParamsOpen cgroupParamsOpen) := by
  intro _ uid h
  rcases h with h | h
  · exact Finmap.notMem_empty h
  · exact Finmap.notMem_empty h

/-- The records and the store after a notification of a pod: of the other pods
they are as before; the pod is stored, or it is deleted and not recorded. -/
structure Handled (a b : AgentState σ) (pod : Pod) : Prop where
  wf : Wf a.mapOps → Wf b.mapOps
  others : ∀ uid, uid ≠ pod.uid → (Tracks b.mapOps uid ↔ Tracks a.mapOps uid)
  store : b.pods = a.pods.insert (keyOf pod) pod ∨
    b.pods = a.pods.erase (keyOf pod) ∧ (Wf a.mapOps → ¬ Tracks b.mapOps pod.uid)

theorem wf_update {m : Maps} (h : Wf m) (c : Update) : Wf (updatePodParams m c).1 := by
  intro hclosed
  rw [update_taskParamsOpen] at hclosed
  rw [updatePodParams_closed m c hclosed]
  exact h hclosed

theorem wf_remove {m : Maps} (h : Wf m) (r : Removal) : Wf (removePodParams m r) := by
  intro hclosed uid htracks
  rw [remove_taskParamsOpen] at hclosed
  exact h hclosed uid ((tracks_remove m r).mp htracks).1

theorem not_tracks_removed {m : Maps} (h : Wf m) (r : Removal) :
    ¬ Tracks (removePodParams m r) r.pod.uid := by
  intro htracks
  obtain ⟨hm, hne⟩ := (tracks_remove m r).mp htracks
  cases hopen : m.taskParamsOpen with
  | false => exact h hopen _ hm
  | true => exact hne hopen rfl

theorem tracks_remove_other {m : Maps} {r : Removal} {uid : String} (hu : uid ≠ r.pod.uid) :
    Tracks (removePodParams m r) uid ↔ Tracks m uid := by
  rw [tracks_remove]
  exact and_iff_left fun _ => hu

theorem handle_handled (ev : Evaluators σ) (a : AgentState σ) (pod : Pod) (found : Found) :
    Handled a (handlePodUpdate ev { a with pods := a.pods.insert (keyOf pod) pod } pod found).1
      pod := by
  cases hphase : pod.phase with
  | running =>
    simp only [handlePodUpdate, hphase]
    exact ⟨fun h => wf_update h _, fun uid hu => tracks_update _ _ hu, .inl rfl⟩
  | succeeded | failed =>
    simp only [handlePodUpdate, hphase]
    exact ⟨fun h => wf_remove h _, fun uid hu => tracks_remove_other hu, .inl rfl⟩
  | pending | unknown =>
    simp only [handlePodUpdate, hphase]
    exact ⟨id, fun uid _ => Iff.rfl, .inl rfl⟩

/-- What a notification is for the records. -/
theorem step_handled {ev : Evaluators σ} {a b : AgentState σ} {n : Notification σ}
    {es : List Event} (h : step ev a n = some (b, es)) :
    (b.pods = a.pods ∧ b.mapOps = a.mapOps ∧ Replaces a n) ∨
      ∃ pod, Handled a b pod ∧ (Replaces a n ↔ Released a pod) := by
  cases n with
  | addPolicy policy | removePolicy name =>
    cases h
    exact .inl ⟨rfl, rfl, trivial⟩
  | podAdd pod found =>
    simp only [step] at h
    split at h
    · cases h
    · next hnone =>
      have hhandled := handle_handled ev a pod found
      rw [Option.some.inj h] at hhandled
      refine .inr ⟨pod, hhandled, iff_of_true trivial ?_⟩
      intro old hold
      rw [hnone] at hold
      cases hold
  | podUpdate pod found =>
    simp only [step] at h
    split at h
    · cases h
    · split at h
      · have hhandled := handle_handled ev a pod found
        rw [Option.some.inj h] at hhandled
        exact .inr ⟨pod, hhandled, Iff.rfl⟩
      · cases h
        exact .inr ⟨pod, ⟨id, fun uid _ => Iff.rfl, .inl rfl⟩, Iff.rfl⟩
  | podDelete pod found =>
    simp only [step] at h
    split at h
    · cases h
    · cases h
      exact .inr ⟨pod, ⟨fun h => wf_remove h _, fun uid hu => tracks_remove_other hu,
        .inr ⟨rfl, fun h => not_tracks_removed h _⟩⟩, Iff.rfl⟩

/-! ## The store after a notification -/

theorem present_iff {a : AgentState σ} {uid : String} :
    Present a uid ↔ ∃ key pod, a.pods.lookup key = some pod ∧ pod.uid = uid := by
  constructor
  · intro h
    obtain ⟨key, -, hmap⟩ := h
    obtain ⟨pod, hpod, huid⟩ := Option.map_eq_some_iff.mp hmap
    exact ⟨key, pod, hpod, huid⟩
  · intro h
    obtain ⟨key, pod, hpod, rfl⟩ := h
    refine ⟨key, ?_, by rw [hpod]; rfl⟩
    rw [Finmap.mem_keys, Finmap.mem_iff]
    exact ⟨pod, hpod⟩

section Handled

variable {a b : AgentState σ} {pod : Pod}

/-- Away from the key of the notification the store is as before. -/
theorem Handled.lookup (h : Handled a b pod) {key : PodKey} (hkey : key ≠ keyOf pod) :
    b.pods.lookup key = a.pods.lookup key := by
  rcases h.store with hb | ⟨hb, -⟩
  · rw [hb, Finmap.lookup_insert_of_ne _ hkey]
  · rw [hb, Finmap.lookup_erase_ne hkey]

/-- At the key of the notification is its pod or none. -/
theorem Handled.lookup_self (h : Handled a b pod) {q : Pod}
    (hq : b.pods.lookup (keyOf pod) = some q) : q = pod := by
  rcases h.store with hb | ⟨hb, -⟩
  · rw [hb, Finmap.lookup_insert] at hq
    exact (Option.some.inj hq).symm
  · rw [hb, Finmap.lookup_erase] at hq
    cases hq

/-- The pod of the notification is in the store, or not recorded. -/
theorem Handled.self (h : Handled a b pod) (hwf : Wf a.mapOps) (ht : Tracks b.mapOps pod.uid) :
    Present b pod.uid := by
  rcases h.store with hb | ⟨-, hnot⟩
  · exact present_iff.mpr ⟨keyOf pod, pod, by rw [hb, Finmap.lookup_insert], rfl⟩
  · exact absurd ht (hnot hwf)

theorem Handled.onlyExisting_iff (h : Handled a b pod) (hwf : Wf a.mapOps)
    (ha : OnlyExisting a) : OnlyExisting b ↔ Released a pod := by
  constructor
  · intro hb old hold hne htracks
    obtain ⟨key, q, hq, huid⟩ := present_iff.mp (hb old.uid ((h.others _ hne).mpr htracks))
    have hkey : key ≠ keyOf pod := by
      intro heq
      rw [heq] at hq
      rw [h.lookup_self hq] at huid
      exact hne huid.symm
    rw [h.lookup hkey] at hq
    refine ⟨key, ?_, hkey, by rw [hq, ← huid]; rfl⟩
    rw [Finmap.mem_keys, Finmap.mem_iff]
    exact ⟨q, hq⟩
  · intro hrel uid htracks
    by_cases hu : uid = pod.uid
    · rw [hu] at htracks ⊢
      exact h.self hwf htracks
    · have htracks := (h.others uid hu).mp htracks
      obtain ⟨key, q, hq, rfl⟩ := present_iff.mp (ha uid htracks)
      by_cases hkey : key = keyOf pod
      · -- the stored pod is replaced or deleted
        rw [hkey] at hq
        obtain ⟨key', -, hkey', hmap⟩ := hrel q hq hu htracks
        obtain ⟨q', hq', huid⟩ := Option.map_eq_some_iff.mp hmap
        exact present_iff.mpr ⟨key', q', by rw [h.lookup hkey', hq'], huid⟩
      · exact present_iff.mpr ⟨key, q, by rw [h.lookup hkey, hq], rfl⟩

end Handled

/-- From an agent that has recorded nothing yet, all states a list of
notifications leads through record existing pods only exactly when no
notification takes a recorded pod out of the store under another UID. -/
theorem records_existing_iff (ev : Evaluators σ) (r : Resolver σ)
    (taskParamsOpen cgroupParamsOpen : Bool) (pods : Finmap fun _ : PodKey => Pod)
    (ns : List (Notification σ)) :
    AllStates (step ev) OnlyExisting ⟨r, opened taskParamsOpen cgroupParamsOpen, pods⟩ ns ↔
      AllSteps (step ev) Replaces ⟨r, opened taskParamsOpen cgroupParamsOpen, pods⟩ ns := by
  refine allStates_iff_allSteps (I := fun a => Wf a.mapOps) ?_ ?_ (wf_opened _ _) ?_ ns
  · intro a n b es hwf hs
    rcases step_handled hs with ⟨-, hm, -⟩ | ⟨pod, hh, -⟩
    · rw [hm]
      exact hwf
    · exact hh.wf hwf
  · intro a n b es hwf ha hs
    rcases step_handled hs with ⟨hp, hm, hrep⟩ | ⟨pod, hh, hrep⟩
    · refine iff_of_true ?_ hrep
      intro uid htracks
      rw [hm] at htracks
      unfold Present
      rw [hp]
      exact ha uid htracks
    · rw [hrep]
      exact hh.onlyExisting_iff hwf ha
  · intro uid htracks
    rcases htracks with h | h
    · exact absurd h Finmap.notMem_empty
    · exact absurd h Finmap.notMem_empty

/-- After a missed deletion a relist brings the pod's successor of the same name
as an update. The old UID stays recorded. -/
theorem recorded_after_replacement :
    (exec (step selectNothing) freshAgent
        [.podAdd web { cgids := [⟨42, none⟩] },
          .podUpdate { web with uid := "u2", containerStatuses := [⟨"containerd://c2", 0⟩] }
            { cgids := [⟨43, none⟩] }]).map
        (fun r => (decide (Tracks r.1.mapOps "u1"), decide (Present r.1 "u1"))) =
      some (true, false) := by
  decide

end K8sSched.Agent.Bookkeeping
