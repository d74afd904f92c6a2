import K8sSched.Agent.Host

/-! # Isolation of the pods on the cgroup channel

Whatever happens on the node, a call of `UpdatePodParams` or `RemovePodParams`
touches `cgroup_params` only under IDs of its own pod, so calls of two pods do
not get in each other's way. -/

namespace K8sSched.Agent.Isolation

open K8sSched.Bpf.Params K8sSched.Agent.Pods K8sSched.Agent.MapOps K8sSched.Agent.CgroupFs
open K8sSched.Agent.PodSubtrees K8sSched.Agent.Host K8sSched.Lib.GoMap K8sSched.Lib.Runs

/-- In this state the pods are kept apart. -/
structure Isolated (s : Node) : Prop where
  /-- What is resolved for two pods is disjoint, whichever reads fail. -/
  resolved : ∀ u v, isUid u → isUid v → u ≠ v → ∀ f g : Faults,
    (resolvePodCgroupIDs s.tree f u).Disjoint (resolvePodCgroupIDs s.tree g v)
  recorded : ∀ u v, u ≠ v → (recordedIDs s.maps u).Disjoint (recordedIDs s.maps v)
  resolvedRecorded : ∀ u v, isUid u → u ≠ v → ∀ f : Faults,
    (resolvePodCgroupIDs s.tree f u).Disjoint (recordedIDs s.maps v)
  /-- An update changes keys of the pod's subtree only. -/
  update : ∀ c t es, s.call = some (.update c) → step s .write = some (t, es) →
    ∀ id, ¬ Owned s.created c.pod.uid id →
      t.maps.kernel.cgroupParams.lookup id = s.maps.kernel.cgroupParams.lookup id
  /-- A removal deletes no key of another pod's subtree. -/
  removal : ∀ r t es, s.call = some (.remove r) → step s .write = some (t, es) →
    ∀ v, isUid v → v ≠ r.pod.uid → ∀ id, Owned s.created v id →
      t.maps.kernel.cgroupParams.lookup id = s.maps.kernel.cgroupParams.lookup id
  /-- Calls of two pods, both resolved on this tree, may be made in either order. -/
  commute : ∀ x y : Call, isUid x.uid → isUid y.uid → x.uid ≠ y.uid → ∀ f g : HostFaults,
    x.FoundOn s.tree s.procs f → y.FoundOn s.tree s.procs g →
    (y.apply (x.apply s.maps)).kernel.cgroupParams =
      (x.apply (y.apply s.maps)).kernel.cgroupParams

section Node

variable {s : Node} {x y : Call}

/-- A call does the same before and after a call of another pod. -/
theorem effect_apply (m : Maps) (hne : x.uid ≠ y.uid) (id : U64) :
    y.effect (x.apply m) id = y.effect m id := by
  obtain ⟨htask, hcg⟩ := apply_open m x
  cases y with
  | update c => simp only [Call.effect, htask, hcg]
  | remove r =>
    have hrec : recordedIDs (x.apply m) r.pod.uid = recordedIDs m r.pod.uid :=
      recorded_apply_ne m hne.symm
    simp only [Call.effect, htask, hcg, hrec]

theorem apply_comm (hs : Wf s) (hux : isUid x.uid) (huy : isUid y.uid) (hne : x.uid ≠ y.uid)
    (hx : ∀ id ∈ x.cgids, Owned s.created x.uid id)
    (hy : ∀ id ∈ y.cgids, Owned s.created y.uid id) :
    (y.apply (x.apply s.maps)).kernel.cgroupParams =
      (x.apply (y.apply s.maps)).kernel.cgroupParams := by
  refine Finmap.ext_lookup fun id => ?_
  rw [lookup_apply, lookup_apply, lookup_apply, lookup_apply, effect_apply _ hne,
    effect_apply _ hne.symm]
  -- no ID belongs to both pods, so one of the calls leaves this one alone
  by_cases hxn : x.effect s.maps id = none
  · rw [hxn, Option.getD_none, Option.getD_none]
  · by_cases hyn : y.effect s.maps id = none
    · rw [hyn, Option.getD_none, Option.getD_none]
    · exact absurd (Owned.unique hs.ids hux huy (effect_owned hs hx hxn) (effect_owned hs hy hyn))
        hne

end Node

/-- In every state reached from a start on any node the pods are kept apart. -/
theorem pods_isolated {tree : CgroupTree} (hids : (tree.dirs.map Dir.id).Nodup)
    {kernel : ParamMaps} {taskParamsOpen cgroupParamsOpen : Bool} {tr : List Event} {s : Node}
    (hrun : Run step (fun _ _ => True) (boot tree kernel taskParamsOpen cgroupParamsOpen) tr s) :
    Isolated s := by
  have hs : Wf s := run_wf (boot_wf hids _ _ _) hrun
  constructor
  · intro u v hu hv hne f g id hid hid'
    exact hne (Owned.unique hs.ids hu hv (resolved_owned hs hid) (resolved_owned hs hid'))
  · intro u v hne id hid hid'
    obtain ⟨hu, howned⟩ := hs.recorded u id hid
    obtain ⟨hv, howned'⟩ := hs.recorded v id hid'
    exact hne (Owned.unique hs.ids hu hv howned howned')
  · intro u v hu hne f id hid hid'
    obtain ⟨hv, howned'⟩ := hs.recorded v id hid'
    exact hne (Owned.unique hs.ids hu hv (resolved_owned hs hid) howned')
  · intro c t es hcall hstep id hid
    obtain ⟨-, howned⟩ := hs.call _ hcall
    simp only [step, hcall] at hstep
    cases hstep
    exact apply_lookup_of_not_owned (x := .update c) hs howned hid
  · intro r t es hcall hstep v hv hne id hid
    obtain ⟨huid, howned⟩ := hs.call _ hcall
    simp only [step, hcall] at hstep
    cases hstep
    have hother : ¬ Owned s.created r.pod.uid id := fun h =>
      hne (Owned.unique hs.ids hv huid hid h)
    exact apply_lookup_of_not_owned (x := .remove r) hs howned hother
  · intro x y hux huy hne f g hx hy
    exact apply_comm hs hux huy hne (fun id hid => hx.owned hs hid) fun id hid => hy.owned hs hid

/-- A container of the first pod starts, both pods are given parameters, and the
first pod's removal has looked at the tree. -/
theorem pods_isolated_two :
    ∃ s tr, Run step (fun _ _ => True) (boot twoPods ⟨∅, ∅⟩ true true) tr s ∧
      recordedIDs s.maps "a" = [2, 4] ∧ recordedIDs s.maps "b" = [3] ∧ s.call.isSome ∧
      Isolated s := by
  have hrun : Run step (fun _ _ => True) (boot twoPods ⟨∅, ∅⟩ true true) _ _ := Run.of_isSome
    [.mkdir ["c1", "poda", "kubepods"] 4,
      .find (.update ⟨podA, some ⟨1, 2⟩, [⟨2, none⟩, ⟨4, none⟩], []⟩) {}, .write,
      .find (.update ⟨podB, some ⟨3, 4⟩, [⟨3, none⟩], []⟩) {}, .write,
      .rmdir ["c1", "poda", "kubepods"],
      .find (.remove ⟨podA, [2], [], [], []⟩) {}] (by decide) (by decide)
  exact ⟨_, _, hrun, by decide, by decide, by decide, pods_isolated (by decide) hrun⟩

end K8sSched.Agent.Isolation
