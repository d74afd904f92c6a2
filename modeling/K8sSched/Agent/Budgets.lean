import Mathlib.Data.Multiset.Lattice
import Mathlib.Order.Lattice.Nat
import K8sSched.Agent.Policies

/-! # Budgets from microseconds to the slice

A budget is written in microseconds, in an annotation or in policies, turned
into nanoseconds in `uint64` by `ParseAnnotationBudget` and `Resolve`, and
becomes the slice in `task_slice`. The products are taken modulo `2 ^ 64`: a
large budget can come out as a small one, and an annotation can come out as not
set at all. -/

namespace K8sSched.Agent.Budgets

open K8sSched.Bpf.Params K8sSched.Agent.Pods K8sSched.Agent.Policies

variable {σ : Type}

/-! ## The budget that was asked for -/

/-- The annotation's value in microseconds, zero when it is no number. -/
def annotationUs (pod : Pod) : Nat :=
  ((parseUint (pod.annotations.get annotationBudget)).map BitVec.toNat).getD 0

/-- The value of a policy in microseconds. -/
def policyUs (policy : SchedulingPolicy σ) : Nat := policy.budgetMicroseconds.toInt.toNat

/-- The largest value of the policies that match the pod. -/
def largestUs (ev : Evaluators σ) (policies : PolicyMap σ) (pod : Pod) : Nat :=
  ((getMatchingPolicies ev policies pod).map policyUs).sup

/-- The annotation if it is positive, else the policies. -/
def budgetUs (ev : Evaluators σ) (policies : PolicyMap σ) (pod : Pod) : Nat :=
  if 0 < annotationUs pod then annotationUs pod else largestUs ev policies pod

/-- The slice a budget in microseconds stands for; zero is no budget. -/
def sliceFor (us : Nat) : Nat := if 0 < us then min 5000000 (1000 * us) else 5000000

/-! ## What the conversions compute -/

/-- The nanoseconds that are left in `uint64`. -/
def wrappedNs (us : Nat) : Nat := 1000 * us % 2 ^ 64

theorem wrappedNs_of_lt {us : Nat} (h : 1000 * us < 2 ^ 64) : wrappedNs us = 1000 * us :=
  Nat.mod_eq_of_lt h

theorem toNat_mul_thousand (v : U64) : (v * 1000).toNat = wrappedNs v.toNat := by
  rw [BitVec.toNat_mul, wrappedNs, Nat.mul_comm]
  rfl

theorem annotationBudget_toNat (pod : Pod) :
    (parseAnnotationBudget pod.annotations).toNat = wrappedNs (annotationUs pod) := by
  unfold parseAnnotationBudget parseWithin annotationUs
  by_cases hs : pod.annotations.get annotationBudget = ""
  · simp [hs, parseUint, wrappedNs]
  · simp only [ne_eq, hs, not_false_eq_true, if_true]
    cases parseUint (pod.annotations.get annotationBudget) with
    | none => rfl
    | some v =>
      by_cases hv : v = 0
      · subst hv
        rfl
      · have hle : (1 : U64) ≤ v ∧ v ≤ BitVec.allOnes 64 :=
          ⟨BitVec.le_def.mpr (toNat_pos hv), BitVec.le_def.mpr (Nat.le_of_lt_succ v.isLt)⟩
        have hfilter : (some v).filter (fun v => decide (1 ≤ v ∧ v ≤ BitVec.allOnes 64)) =
            some v := Option.filter_some_pos (decide_eq_true hle)
        rw [hfilter]
        exact toNat_mul_thousand v

theorem mergeBudget_toNat (acc : U64) (policy : SchedulingPolicy σ) :
    (mergeBudget acc policy).toNat = max acc.toNat (wrappedNs (policyUs policy)) := by
  unfold mergeBudget mergeField policyUs
  split
  · next h =>
    have hus : policy.budgetMicroseconds.toInt.toNat = policy.budgetMicroseconds.toNat := by
      rw [BitVec.toInt_eq_toNat_of_lt (BitVec.toInt_pos_iff.mp h.le)]
      rfl
    rw [raise_toNat, toNat_mul_thousand, hus]
  · next h =>
    rw [Int.toNat_eq_zero.mpr (not_lt.mp h)]
    exact (Nat.max_zero _).symm

/-- The budget after the loop of `Resolve`. -/
theorem merged_toNat (s : Multiset (SchedulingPolicy σ)) (acc : U64 × U64) :
    (s.foldl merge acc).2.toNat =
      max acc.2.toNat (s.map fun policy => wrappedNs (policyUs policy)).sup := by
  induction s using Multiset.induction_on generalizing acc with
  | empty => simp
  | cons policy s ih =>
    rw [Multiset.foldl_cons, ih, Multiset.map_cons, Multiset.sup_cons]
    show max (mergeBudget acc.2 policy).toNat _ = _
    rw [mergeBudget_toNat, max_assoc]

/-! ## The slice -/

section Slice

variable (ev : Evaluators σ) (policies : PolicyMap σ) (pod : Pod)

/-- The largest remainder of the matching policies. -/
def largestNs : Nat :=
  ((getMatchingPolicies ev policies pod).map fun policy => wrappedNs (policyUs policy)).sup

theorem resolved_toNat :
    (resolveParams ev policies pod).budgetNs.toNat =
      if wrappedNs (annotationUs pod) ≠ 0 then wrappedNs (annotationUs pod)
      else largestNs ev policies pod := by
  show (overrideWith (parseAnnotationBudget pod.annotations) _).toNat = _
  have hpos : 0 < parseAnnotationBudget pod.annotations ↔ wrappedNs (annotationUs pod) ≠ 0 := by
    rw [BitVec.lt_def, annotationBudget_toNat]
    exact Nat.pos_iff_ne_zero
  unfold overrideWith
  rw [apply_ite BitVec.toNat, annotationBudget_toNat, merged_toNat]
  simp only [hpos]
  simp [largestNs]

theorem taskSlice_toNat (tp : TaskParams) :
    (taskSlice tp).toNat =
      if tp.budgetNs.toNat ≠ 0 ∧ tp.budgetNs.toNat < 5000000 then tp.budgetNs.toNat
      else 5000000 := by
  have hzero : tp.budgetNs ≠ 0 ↔ tp.budgetNs.toNat ≠ 0 := by
    rw [ne_eq, ne_eq, BitVec.toNat_eq]
    rfl
  unfold taskSlice
  rw [apply_ite BitVec.toNat]
  simp only [hzero, BitVec.lt_def]
  rfl

theorem largestNs_of_lt (h : 1000 * largestUs ev policies pod < 2 ^ 64) :
    largestNs ev policies pod = 1000 * largestUs ev policies pod := by
  unfold largestUs at h ⊢
  unfold largestNs
  generalize getMatchingPolicies ev policies pod = s at h ⊢
  induction s using Multiset.induction_on with
  | empty => rfl
  | cons policy s ih =>
    rw [Multiset.map_cons, Multiset.sup_cons] at h ⊢
    have hs : 1000 * (s.map policyUs).sup < 2 ^ 64 := by
      have := le_max_right (policyUs policy) (s.map policyUs).sup
      change 1000 * max _ _ < _ at h
      omega
    have hp : 1000 * policyUs policy < 2 ^ 64 := by
      have := le_max_left (policyUs policy) (s.map policyUs).sup
      change 1000 * max _ _ < _ at h
      omega
    rw [Multiset.map_cons, Multiset.sup_cons, ih hs, wrappedNs_of_lt hp]
    exact Nat.mul_max_mul_left _ _ _

/-- Where the products wrap, the slice still comes out as the default one: the
annotation's remainder is at least that long, or it is zero and the same holds
of the policies, or all of their remainders are zero. -/
def WrapsToDefault : Prop :=
  if wrappedNs (annotationUs pod) ≠ 0 then 5000000 ≤ wrappedNs (annotationUs pod)
  else
    (∃ policy ∈ getMatchingPolicies ev policies pod, 5000000 ≤ wrappedNs (policyUs policy)) ∨
      ∀ policy ∈ getMatchingPolicies ev policies pod, wrappedNs (policyUs policy) = 0

theorem wrapsToDefault_iff :
    WrapsToDefault ev policies pod ↔
      ¬ ((resolveParams ev policies pod).budgetNs.toNat ≠ 0 ∧
        (resolveParams ev policies pod).budgetNs.toNat < 5000000) := by
  have hle : ∀ n, largestNs ev policies pod ≤ n ↔
      ∀ policy ∈ getMatchingPolicies ev policies pod, wrappedNs (policyUs policy) ≤ n := by
    intro n
    unfold largestNs
    rw [Multiset.sup_le, Multiset.forall_mem_map_iff]
  have hlong : 5000000 ≤ largestNs ev policies pod ↔
      ∃ policy ∈ getMatchingPolicies ev policies pod, 5000000 ≤ wrappedNs (policyUs policy) := by
    have hshort := not_congr (hle 4999999)
    push Not at hshort
    exact hshort
  have hzero : largestNs ev policies pod = 0 ↔
      ∀ policy ∈ getMatchingPolicies ev policies pod, wrappedNs (policyUs policy) = 0 := by
    rw [← Nat.le_zero, hle]
    simp only [Nat.le_zero]
  rw [resolved_toNat]
  unfold WrapsToDefault
  split
  · next h => omega
  · rw [← hlong, ← hzero]
    omega

/-- The slice the kernel takes from the resolved budget is the one that was
asked for exactly when the product of the budget fits into 64 bits or the
products that do not leave the default slice anyway. -/
theorem slice_exact_iff :
    (taskSlice (resolveParams ev policies pod)).toNat = sliceFor (budgetUs ev policies pod) ↔
      1000 * budgetUs ev policies pod < 2 ^ 64 ∨ WrapsToDefault ev policies pod := by
  rw [wrapsToDefault_iff, taskSlice_toNat]
  by_cases hfit : 1000 * budgetUs ev policies pod < 2 ^ 64
  · have hns : (resolveParams ev policies pod).budgetNs.toNat =
        1000 * budgetUs ev policies pod := by
      rw [resolved_toNat]
      unfold budgetUs at hfit ⊢
      by_cases ha : 0 < annotationUs pod
      · rw [if_pos ha] at hfit ⊢
        rw [wrappedNs_of_lt hfit, if_pos (by omega)]
      · rw [if_neg ha] at hfit ⊢
        have hzero : wrappedNs (annotationUs pod) = 0 := by
          rw [Nat.eq_zero_of_not_pos ha]
          rfl
        rw [if_neg (not_not.mpr hzero), largestNs_of_lt ev policies pod hfit]
    rw [hns]
    refine iff_of_true ?_ (.inl hfit)
    unfold sliceFor
    split <;> split <;> omega
  · have hslice : sliceFor (budgetUs ev policies pod) = 5000000 := by
      unfold sliceFor
      split <;> omega
    rw [hslice]
    split
    · next h => exact iff_of_false (by omega) (not_or.mpr ⟨hfit, not_not.mpr h⟩)
    · next h => exact iff_of_true rfl (.inr h)

end Slice

/-- A budget of some centuries. -/
def unlimited : SchedulingPolicy Unit :=
  { name := "unlimited", budgetMicroseconds := 18446744073709552 }

/-- The budget wraps to 384 ns, and so does the slice. -/
theorem century_wraps :
    ((taskSlice (resolveParams ⟨fun _ => none, fun _ _ _ => .error ""⟩
        ((∅ : Finmap _).insert "unlimited" unlimited)
        { name := "web", ns := "default", uid := "u1" })).toNat,
      sliceFor (budgetUs ⟨fun _ => none, fun _ _ _ => .error ""⟩
        ((∅ : Finmap _).insert "unlimited" unlimited)
        { name := "web", ns := "default", uid := "u1" })) = (384, 5000000) := by
  decide

end K8sSched.Agent.Budgets
