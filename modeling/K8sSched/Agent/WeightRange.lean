import K8sSched.Agent.Watcher
import K8sSched.Agent.Precedence
import K8sSched.Agent.Host
import K8sSched.Bpf.Ops

/-! # The weights the scheduler reads

`k8s_stopping` divides by the weight of an entry, or by 1 where it is zero, and
does not look at how large it is. Whatever notifications the agent handles, as
long as the policies are ones the API server admits, no entry of its maps gets a
weight above 10000. So a task is charged at least the time it used, and at most
ten thousand times as much. -/

namespace K8sSched.Agent.WeightRange
open K8sSched.Bpf.Params K8sSched.Bpf.Ops K8sSched.Agent.Pods K8sSched.Agent.MapOps
open K8sSched.Agent.Policies K8sSched.Agent.Watcher K8sSched.Agent.Precedence K8sSched.Lib.Runs
open K8sSched.Lib.GoMap (lookup_insert_eq_some lookup_erase_eq_some)

variable {σ : Type}

/-- Entries that were pinned before may have the weight zero. -/
def InRange (tp : TaskParams) : Prop := tp.weight.toNat ≤ 10000

structure MapsInRange (maps : ParamMaps) : Prop where
  task : ∀ pid tp, maps.taskParams.lookup pid = some tp → InRange tp
  cgroup : ∀ id tp, maps.cgroupParams.lookup id = some tp → InRange tp

/-- A policy the agent is told of is one the API server admits. -/
def AdmittedOnly (_ : AgentState σ) : Notification σ → Prop
  | .addPolicy policy => Admitted policy
  | _ => True

structure Inv (a : AgentState σ) : Prop where
  policies : ∀ name policy, a.resolver.policies.lookup name = some policy → Admitted policy
  maps : MapsInRange a.mapOps.kernel

/-! ## Resolution -/

theorem resolved_inRange (ev : Evaluators σ) {policies : PolicyMap σ}
    (h : ∀ name policy, policies.lookup name = some policy → Admitted policy) (pod : Pod) :
    InRange (resolveParams ev policies pod) := by
  have horder : Enumerates policies (policies.entries.map Sigma.snd).toList :=
    Multiset.coe_toList _
  rw [resolveParams_eq_in ev horder]
  refine (WeightIs.range (weightIs_resolveIn ev _ pod) fun policy hpolicy => ?_).2
  obtain ⟨⟨name, policy'⟩, hentry, rfl⟩ := Multiset.mem_map.mp (Multiset.mem_toList.mp hpolicy.1)
  exact h name policy' (Finmap.mem_lookup_iff.mpr hentry)

/-! ## The maps -/

theorem MapsInRange.update {m : Maps} (h : MapsInRange m.kernel) {c : Update}
    (hc : InRange c.params) : MapsInRange (updatePodParams m c).1.kernel where
  task := by
    intro pid tp htp
    rw [Host.lookup_update_pid] at htp
    split at htp
    · cases htp
      exact hc
    · exact h.task pid tp htp
  cgroup := by
    intro id tp htp
    have happly := Host.lookup_apply m (.update c) id
    simp only [Host.Call.apply, Host.Call.effect, htp] at happly
    split at happly
    · cases happly
      exact hc
    · exact h.cgroup id tp happly.symm

theorem MapsInRange.remove {m : Maps} (h : MapsInRange m.kernel) (r : Removal) :
    MapsInRange (removePodParams m r).kernel where
  task := fun pid tp htp => h.task pid tp (Host.lookup_remove_pid m r htp)
  cgroup := by
    intro id tp htp
    have happly := Host.lookup_apply m (.remove r) id
    simp only [Host.Call.apply, Host.Call.effect, htp] at happly
    split at happly
    · cases happly
    · exact h.cgroup id tp happly.symm

/-! ## Notifications -/

section Step

variable {ev : Evaluators σ} {a b : AgentState σ}

theorem Inv.addPolicy (h : Inv a) {policy : SchedulingPolicy σ} (hp : Admitted policy) :
    Inv { a with resolver := addPolicy a.resolver policy } := by
  refine ⟨fun name policy' hlookup => ?_, h.maps⟩
  simp only [Policies.addPolicy] at hlookup
  split at hlookup
  · exact h.policies name policy' hlookup
  · rcases lookup_insert_eq_some.mp hlookup with ⟨-, rfl⟩ | ⟨-, hold⟩
    · exact hp
    · exact h.policies name policy' hold

theorem Inv.removePolicy (h : Inv a) (name : String) :
    Inv { a with resolver := removePolicy a.resolver name } :=
  ⟨fun n policy hlookup => h.policies n policy (lookup_erase_eq_some.mp hlookup).2, h.maps⟩

theorem Inv.delete (h : Inv a) (pod : Pod) (found : Found) : Inv (onPodDelete a pod found).1 :=
  ⟨h.policies, h.maps.remove _⟩

theorem Inv.update (h : Inv a) (pod : Pod) (found : Found) :
    Inv (onPodUpdate ev a pod found).1 := by
  refine ⟨fun name policy hlookup => ?_, h.maps.update (resolved_inRange ev h.policies pod)⟩
  have hpolicies := resolve_policies ev a.resolver pod
  exact h.policies name policy (hpolicies ▸ hlookup)

theorem Inv.handle (h : Inv a) (ev : Evaluators σ) (pod : Pod) (found : Found) :
    Inv (handlePodUpdate ev a pod found).1 := by
  unfold handlePodUpdate
  split
  · exact h.update pod found
  · exact h.delete pod found
  · exact h.delete pod found
  · exact h
  · exact h

theorem Inv.step (h : Inv a) {n : Notification σ} (hn : AdmittedOnly a n) {es : List Event}
    (hstep : step ev a n = some (b, es)) : Inv b := by
  have hstored : ∀ pods, Inv { a with pods := pods } := fun _ => ⟨h.policies, h.maps⟩
  cases n with
  | addPolicy policy =>
    cases hstep
    exact h.addPolicy hn
  | removePolicy name =>
    cases hstep
    exact h.removePolicy name
  | podAdd pod found =>
    simp only [Watcher.step] at hstep
    split at hstep
    · cases hstep
    · have hhandled : Inv _ := (hstored (a.pods.insert (keyOf pod) pod)).handle ev pod found
      rw [Option.some.inj hstep] at hhandled
      exact hhandled
  | podUpdate pod found =>
    simp only [Watcher.step] at hstep
    split at hstep
    · cases hstep
    · split at hstep
      · have hhandled : Inv _ := (hstored (a.pods.insert (keyOf pod) pod)).handle ev pod found
        rw [Option.some.inj hstep] at hhandled
        exact hhandled
      · cases hstep
        exact hstored _
  | podDelete pod found =>
    simp only [Watcher.step] at hstep
    split at hstep
    · cases hstep
    · cases hstep
      exact (hstored _).delete pod found

end Step

/-! ## Charges -/

theorem looked_up_inRange {maps : ParamMaps} (h : MapsInRange maps) (p : Task) :
    InRange (lookupTaskParams maps p).2 := by
  rcases lookupTaskParams_cases maps p with hdef | htask | hcgroup
  · rw [hdef]
    unfold InRange
    decide
  · exact h.task _ _ htask
  · exact h.cgroup _ _ hcgroup

/-- The part of the slice that was used, all of it if more than the slice is left. -/
def usedOf (tp : TaskParams) (remaining : U64) : Nat :=
  if remaining.toNat ≤ (taskSlice tp).toNat then (taskSlice tp).toNat - remaining.toNat
  else (taskSlice tp).toNat

theorem used_toNat (tp : TaskParams) (remaining : U64) :
    (if taskSlice tp - remaining > taskSlice tp then taskSlice tp
      else taskSlice tp - remaining).toNat = usedOf tp remaining := by
  have hlt := remaining.isLt
  have hslice := (taskSlice tp).isLt
  unfold usedOf
  by_cases hle : remaining.toNat ≤ (taskSlice tp).toNat
  · have hsub : (taskSlice tp - remaining).toNat = (taskSlice tp).toNat - remaining.toNat :=
      BitVec.toNat_sub_of_le (BitVec.le_def.mpr hle)
    have hguard : ¬ (taskSlice tp - remaining > taskSlice tp) := by
      rw [gt_iff_lt, BitVec.lt_def, hsub]
      omega
    rw [if_pos hle, if_neg hguard, hsub]
  · have hguard : taskSlice tp - remaining > taskSlice tp := by
      rw [gt_iff_lt, BitVec.lt_def, BitVec.toNat_sub]
      omega
    rw [if_neg hle, if_pos hguard]

theorem charge_inRange {tp : TaskParams} (h : InRange tp) (remaining : U64) :
    usedOf tp remaining ≤ (stoppingCharge tp remaining).toNat ∧
      (stoppingCharge tp remaining).toNat ≤ 10000 * usedOf tp remaining := by
  -- the divisor is from 1 to 10000 also where the weight is zero
  have hlo := weight_pos tp.weight
  have hhi : (if tp.weight ≠ 0 then tp.weight else 1 : U64).toNat ≤ 10000 := by
    split
    · exact h
    · decide
  rw [stoppingCharge_toNat, used_toNat]
  constructor
  · rw [Nat.le_div_iff_mul_le hlo]
    exact Nat.mul_le_mul_left _ hhi
  · rw [mul_comm 10000]
    exact Nat.div_le_self _ _

/-- From any agent over maps with weights of at most 10000, after any
notifications with policies the API server admits, every task is charged the time
it used at least and ten thousand times that at most, whichever entry applies to
it and whatever is left of its slice. -/
theorem charged_within {ev : Evaluators σ} {start a : AgentState σ} {tr : List Event}
    (hpolicies : ∀ name policy, start.resolver.policies.lookup name = some policy →
      Admitted policy)
    (hmaps : MapsInRange start.mapOps.kernel) (h : Run (step ev) AdmittedOnly start tr a)
    {p : Task} {tp : TaskParams} (hp : (lookupTaskParams a.mapOps.kernel p).2 = tp)
    (remaining : U64) :
    usedOf tp remaining ≤ (stoppingCharge tp remaining).toNat ∧
      (stoppingCharge tp remaining).toNat ≤ 10000 * usedOf tp remaining := by
  have hinv : Inv a := h.invariant (I := fun _ a => Inv a) ⟨hpolicies, hmaps⟩
    fun _ _ _ _ _ hI hok hstep => hI.step hok hstep
  exact charge_inRange (hp ▸ looked_up_inRange hinv.maps p) remaining

def lowWeight : SchedulingPolicy Unit := { name := "batch", weight := 200 }

def weighted : List (Notification Unit) :=
  [.addPolicy lowWeight, .podAdd web { cgids := [⟨2, none⟩] }]

instance (a : AgentState Unit) (n : Notification Unit) : Decidable (AdmittedOnly a n) :=
  match n with
  | .addPolicy policy => inferInstanceAs (Decidable (policy.weight = 0 ∨ _ ∧ _))
  | .removePolicy _ | .podAdd _ _ | .podUpdate _ _ | .podDelete _ _ =>
    inferInstanceAs (Decidable True)

/-- An agent over maps with an entry of weight zero. -/
def overZero : AgentState Unit :=
  { freshAgent with mapOps := { opened true true with
      kernel := ⟨∅, (∅ : Finmap _).insert 9 ⟨0, 0⟩⟩ } }

/-- A policy of weight 200 and then a pod with a cgroup: a task of the pod that used
2 of its 5 ms is charged fifty times that, and one of the entry that was there
before ten thousand times. -/
theorem charged_within_weighted :
    ∃ (tr : List Event) (a : AgentState Unit),
      Run (step selectNothing) AdmittedOnly overZero tr a ∧
      (lookupTaskParams a.mapOps.kernel ⟨7, some 2⟩).2 = ⟨200, 0⟩ ∧
      (stoppingCharge ⟨200, 0⟩ 3000000).toNat = 50 * 2000000 ∧
      usedOf ⟨200, 0⟩ 3000000 ≤ (stoppingCharge ⟨200, 0⟩ 3000000).toNat ∧
      (lookupTaskParams a.mapOps.kernel ⟨8, some 9⟩).2 = ⟨0, 0⟩ ∧
      (stoppingCharge ⟨0, 0⟩ 3000000).toNat ≤ 10000 * usedOf ⟨0, 0⟩ 3000000 := by
  have h : Run (step selectNothing) AdmittedOnly overZero _ _ :=
    Run.of_isSome weighted (by decide) (by decide)
  have hp : (lookupTaskParams ((exec (step selectNothing) overZero weighted).get
      (by decide)).1.mapOps.kernel ⟨7, some 2⟩).2 = ⟨200, 0⟩ := by decide
  have hq : (lookupTaskParams ((exec (step selectNothing) overZero weighted).get
      (by decide)).1.mapOps.kernel ⟨8, some 9⟩).2 = ⟨0, 0⟩ := by decide
  have hmaps : MapsInRange overZero.mapOps.kernel := by
    refine ⟨fun _ _ hl => (by cases hl), fun id tp hl => ?_⟩
    rcases lookup_insert_eq_some.mp hl with ⟨-, rfl⟩ | ⟨-, hnone⟩
    · exact Nat.zero_le _
    · cases hnone
  refine ⟨_, _, h, hp, by decide, ?_, hq, ?_⟩
  · exact (charged_within (fun _ _ hl => (by cases hl)) hmaps h hp 3000000).1
  · exact (charged_within (fun _ _ hl => (by cases hl)) hmaps h hq 3000000).2

end K8sSched.Agent.WeightRange
