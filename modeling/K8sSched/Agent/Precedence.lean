import Mathlib.Data.Nat.Digits.Defs
import Mathlib.Order.Bounds.Basic
import K8sSched.Agent.Budgets
import K8sSched.Cel.Evaluate

/-! # The documented precedence

What `Resolve` of `internal/policy/resolver.go` promises, in its own terms:
annotations before policies before the defaults, for the weight and the budget
apart, the largest value of the policies that apply. A policy applies when its
selector is nil or matches and its condition is empty or evaluates to true; one
whose selector is invalid or whose condition fails does not count. The loop of
`Resolve` is taken over the policies in any order. Budgets are promised in
nanoseconds without bound; `Resolve` has them in `uint64`, and where one does not
fit, another one may take its place. -/

namespace K8sSched.Agent.Precedence

open K8sSched.Bpf.Params K8sSched.Agent.Pods K8sSched.Agent.Policies K8sSched.Agent.Budgets
open K8sSched.Cel.Evaluate

variable {σ P ε : Type}

/-! ## Annotations -/

/-- A number in decimal digits. -/
def Decimal (s : String) (n : Nat) : Prop :=
  s ≠ "" ∧ (∀ c ∈ s.toList, c.isDigit) ∧
    Nat.ofDigits 10 (s.toList.reverse.map fun c => c.toNat - '0'.toNat) = n

/-- The annotation of the pod is a decimal number within bounds. -/
def Annotated (pod : Pod) (key : String) (lo hi n : Nat) : Prop :=
  Decimal (pod.annotations.get key) n ∧ lo ≤ n ∧ n ≤ hi

theorem foldlM_digits (l : List Char) (acc n : Nat) :
    l.foldlM (fun n c => if c.isDigit then some (n * 10 + (c.toNat - '0'.toNat)) else none) acc =
        some n ↔
      (∀ c ∈ l, c.isDigit) ∧
        Nat.ofDigits 10 (l.reverse.map fun c => c.toNat - '0'.toNat) + 10 ^ l.length * acc = n := by
  induction l generalizing acc with
  | nil => simp
  | cons c l ih =>
    rw [List.foldlM_cons]
    by_cases hc : c.isDigit
    · rw [if_pos hc]
      show l.foldlM _ (acc * 10 + (c.toNat - '0'.toNat)) = some n ↔ _
      rw [ih, List.reverse_cons, List.map_append, Nat.ofDigits_append]
      simp only [List.forall_mem_cons, hc, true_and, List.map_cons, List.map_nil,
        Nat.ofDigits_singleton, List.length_map, List.length_reverse, List.length_cons, pow_succ]
      rw [show Nat.ofDigits 10 (l.reverse.map fun c => c.toNat - '0'.toNat) +
          10 ^ l.length * (acc * 10 + (c.toNat - '0'.toNat)) =
        Nat.ofDigits 10 (l.reverse.map fun c => c.toNat - '0'.toNat) +
          10 ^ l.length * (c.toNat - '0'.toNat) + 10 ^ l.length * 10 * acc by ring]
    · rw [if_neg hc]
      simp [hc]

/-- `ParseUint` accepts the decimal numbers below `2 ^ 64`. -/
theorem parseUint_eq_some {s : String} {v : U64} : parseUint s = some v ↔ Decimal s v.toNat := by
  unfold parseUint Decimal
  by_cases hs : s = ""
  · simp [hs]
  · have hdigits := foldlM_digits s.toList 0
    simp only [Nat.mul_zero, Nat.add_zero] at hdigits
    simp only [hs, if_false, ne_eq, not_false_eq_true, true_and, ← hdigits]
    cases s.toList.foldlM (fun n c =>
        if c.isDigit then some (n * 10 + (c.toNat - '0'.toNat)) else none) 0 with
    | none => simp
    | some n =>
      show (if n < 2 ^ 64 then some (BitVec.ofNat 64 n) else none) = some v ↔ some n = some v.toNat
      rw [Option.some.injEq]
      constructor
      · intro h
        split at h
        · next hn =>
          rw [← Option.some.inj h, BitVec.toNat_ofNat, Nat.mod_eq_of_lt hn]
        · cases h
      · intro h
        subst h
        rw [if_pos v.isLt, BitVec.ofNat_toNat, BitVec.setWidth_eq]

theorem parseWithin_eq_some {pod : Pod} {key : String} {lo hi v : U64} :
    parseWithin pod.annotations key lo hi = some v ↔
      Annotated pod key lo.toNat hi.toNat v.toNat := by
  unfold parseWithin Annotated
  by_cases hs : pod.annotations.get key = ""
  · simp [hs, Decimal]
  · simp [hs, Option.filter_eq_some_iff, parseUint_eq_some, BitVec.le_def]

/-- An annotation that is not a number within bounds is not read. -/
theorem parseWithin_eq_none {pod : Pod} {key : String} {lo hi : U64} :
    parseWithin pod.annotations key lo hi = none ↔
      ¬ ∃ n, Annotated pod key lo.toNat hi.toNat n := by
  rw [Option.eq_none_iff_forall_ne_some]
  constructor
  · rintro h ⟨n, hn⟩
    have hlt : n < 2 ^ 64 := hn.2.2.trans_lt hi.isLt
    refine h (BitVec.ofNat 64 n) (parseWithin_eq_some.mpr ?_)
    rwa [BitVec.toNat_ofNat, Nat.mod_eq_of_lt hlt]
  · intro h v hv
    exact h ⟨v.toNat, parseWithin_eq_some.mp hv⟩

theorem Decimal.unique {s : String} {n m : Nat} (hn : Decimal s n) (hm : Decimal s m) : n = m :=
  hn.2.2.symm.trans hm.2.2

theorem parseAnnotationWeight_cases (pod : Pod) :
    Annotated pod annotationWeight 1 10000 (parseAnnotationWeight pod.annotations).toNat ∨
      (¬ ∃ n, Annotated pod annotationWeight 1 10000 n) ∧
        ((∃ n, Annotated pod annotationImportance 1 100 n ∧
            (parseAnnotationWeight pod.annotations).toNat = 100 * n) ∨
          (¬ ∃ n, Annotated pod annotationImportance 1 100 n) ∧
            parseAnnotationWeight pod.annotations = 0) := by
  unfold parseAnnotationWeight
  cases hweight : parseWithin pod.annotations annotationWeight 1 10000 with
  | some v => exact .inl (parseWithin_eq_some.mp hweight)
  | none =>
    refine .inr ⟨parseWithin_eq_none.mp hweight, ?_⟩
    cases himportance : parseWithin pod.annotations annotationImportance 1 100 with
    | some v =>
      have hv : Annotated pod annotationImportance 1 100 v.toNat :=
        parseWithin_eq_some.mp himportance
      have hle := hv.2.2
      refine .inl ⟨v.toNat, hv, ?_⟩
      show (v * 100).toNat = _
      rw [BitVec.toNat_mul, show ((100 : U64).toNat) = 100 from rfl, Nat.mod_eq_of_lt (by omega),
        Nat.mul_comm]
    | none => exact .inr ⟨parseWithin_eq_none.mp himportance, rfl⟩

/-- The annotation's budget in the nanoseconds that are left in `uint64`, if any
are. -/
def ConvertedNs (pod : Pod) (ns : Nat) : Prop :=
  ∃ us, Annotated pod annotationBudget 1 (2 ^ 64 - 1) us ∧ wrappedNs us = ns ∧ 0 < ns

theorem parseAnnotationBudget_cases (pod : Pod) :
    ConvertedNs pod (parseAnnotationBudget pod.annotations).toNat ∨
      (¬ ∃ ns, ConvertedNs pod ns) ∧ parseAnnotationBudget pod.annotations = 0 := by
  unfold parseAnnotationBudget
  cases hbudget : parseWithin pod.annotations annotationBudget 1 (BitVec.allOnes 64) with
  | some v =>
    have hv : Annotated pod annotationBudget 1 (2 ^ 64 - 1) v.toNat :=
      parseWithin_eq_some.mp hbudget
    by_cases hzero : v * 1000 = 0
    · refine .inr ⟨?_, hzero⟩
      rintro ⟨ns, us, hus, rfl, hpos⟩
      rw [hus.1.unique hv.1, ← toNat_mul_thousand, hzero] at hpos
      exact absurd hpos (by decide)
    · exact .inl ⟨v.toNat, hv, (toNat_mul_thousand v).symm, toNat_pos hzero⟩
  | none =>
    refine .inr ⟨?_, rfl⟩
    rintro ⟨ns, us, hus, -⟩
    exact parseWithin_eq_none.mp hbudget ⟨us, hus⟩

/-! ## Policies that apply -/

section Applies

variable (describe : EvalError ε → String) (selector : σ → Option (StringMap → Bool))
  (compile : String → Except ε P) (eval : P → Signal × Context → Except ε Value)

/-- The evaluators of a resolver with these selectors, compiler and programs;
`describe` is the text of an error. -/
def evaluators : Evaluators σ where
  selector := selector
  cel expr signal context :=
    match evaluate compile eval expr (signal, context) with
    | .ok passes => .ok passes
    | .error err => .error (describe err)

/-- The selector is nil or matches, and the condition is empty or compiles and
evaluates to true. -/
def Applies (pod : Pod) (policy : SchedulingPolicy σ) : Prop :=
  (policy.podSelector = none ∨
    ∃ sel holds, policy.podSelector = some sel ∧ selector sel = some holds ∧
      holds pod.labels = true) ∧
  (policy.celCondition = "" ∨
    ∃ prog, compile policy.celCondition = .ok prog ∧
      eval prog (signalOf pod, contextOf policy) = .ok (.bool true))

theorem selects_iff {pod : Pod} {policy : SchedulingPolicy σ} :
    selects (evaluators describe selector compile eval) policy pod = true ↔
      Applies selector compile eval pod policy := by
  unfold selects Applies
  rw [Bool.and_eq_true]
  refine and_congr ?_ ?_
  · unfold podSelectorMatches
    cases policy.podSelector with
    | none => simp
    | some sel =>
      cases hsel : selector sel with
      | none => simp [evaluators, hsel]
      | some holds => simp [evaluators, hsel]
  · unfold celConditionPasses
    by_cases hc : policy.celCondition = ""
    · simp [hc]
    · rw [if_neg hc, ← evaluate_eq_ok]
      simp only [evaluators, hc, false_or]
      cases evaluate compile eval policy.celCondition (signalOf pod, contextOf policy) with
      | error err => simp
      | ok passes => simp

end Applies

/-! ## The loop -/

/-- `Resolve` over the cached policies in the order `range` visits them. -/
def resolveIn (ev : Evaluators σ) (order : List (SchedulingPolicy σ)) (pod : Pod) : TaskParams :=
  let merged := (order.filter fun policy => selects ev policy pod).foldl merge (0, 0)
  let weight := overrideWith merged.1 (qosDefaultWeight pod.qosClass)
  { weight := overrideWith (parseAnnotationWeight pod.annotations) weight
    budgetNs := overrideWith (parseAnnotationBudget pod.annotations) merged.2 }

/-- An order of the entries of the map. -/
def Enumerates (policies : PolicyMap σ) (order : List (SchedulingPolicy σ)) : Prop :=
  (order : Multiset (SchedulingPolicy σ)) = policies.entries.map Sigma.snd

theorem resolveParams_eq_in (ev : Evaluators σ) {policies : PolicyMap σ}
    {order : List (SchedulingPolicy σ)} (h : Enumerates policies order) (pod : Pod) :
    resolveParams ev policies pod = resolveIn ev order pod := by
  have hmatching : getMatchingPolicies ev policies pod =
      ((order.filter fun policy => selects ev policy pod : List (SchedulingPolicy σ)) :
        Multiset (SchedulingPolicy σ)) := by
    rw [getMatchingPolicies, ← h, Multiset.filter_coe]
    simp
  rw [resolveParams, hmatching, Multiset.coe_foldl]
  rfl

/-- Merging positive fields over a list gives a bound of their values that is one
of them, or the start. -/
theorem foldl_mergeField {A : Type} {w : Nat} (field : A → BitVec w) (value : A → U64) (l : List A)
    (acc : U64) :
    let merged := l.foldl (fun acc a => mergeField (field a) (value a) acc) acc
    acc.toNat ≤ merged.toNat ∧
      (∀ a ∈ l, 0 < (field a).toInt → (value a).toNat ≤ merged.toNat) ∧
      (merged = acc ∨ ∃ a ∈ l, 0 < (field a).toInt ∧ merged = value a) := by
  induction l generalizing acc with
  | nil => exact ⟨le_rfl, by simp, .inl rfl⟩
  | cons a l ih =>
    obtain ⟨hacc, hall, hone⟩ := ih (mergeField (field a) (value a) acc)
    rw [List.foldl_cons]
    generalize l.foldl (fun acc a => mergeField (field a) (value a) acc)
      (mergeField (field a) (value a) acc) = merged at hacc hall hone ⊢
    by_cases hpos : 0 < (field a).toInt
    · rw [mergeField, if_pos hpos] at hacc hone
      rw [raise_toNat] at hacc
      refine ⟨by omega, ?_, ?_⟩
      · intro b hb hbpos
        rcases List.mem_cons.mp hb with rfl | hb
        · omega
        · exact hall b hb hbpos
      · rcases hone with hone | ⟨b, hb, hone⟩
        · unfold raise at hone
          split at hone
          · exact .inr ⟨a, List.mem_cons_self, hpos, hone⟩
          · exact .inl hone
        · exact .inr ⟨b, List.mem_cons_of_mem _ hb, hone⟩
    · rw [mergeField, if_neg hpos] at hacc hone
      refine ⟨hacc, ?_, ?_⟩
      · intro b hb hbpos
        rcases List.mem_cons.mp hb with rfl | hb
        · exact absurd hbpos hpos
        · exact hall b hb hbpos
      · rcases hone with hone | ⟨b, hb, hone⟩
        · exact .inl hone
        · exact .inr ⟨b, List.mem_cons_of_mem _ hb, hone⟩

/-- The largest value where a field is positive, zero where there is none. -/
theorem merged_largest {A : Type} {w : Nat} (field : A → BitVec w) (value : A → U64) (l : List A) :
    let merged := l.foldl (fun acc a => mergeField (field a) (value a) acc) 0
    ({n | ∃ a ∈ l, 0 < (field a).toInt ∧ (value a).toNat = n} = ∅ ∧ merged = 0) ∨
      IsGreatest {n | ∃ a ∈ l, 0 < (field a).toInt ∧ (value a).toNat = n} merged.toNat := by
  obtain ⟨-, hall, hone⟩ := foldl_mergeField field value l 0
  have hbound : ∀ n ∈ {n | ∃ a ∈ l, 0 < (field a).toInt ∧ (value a).toNat = n},
      n ≤ (l.foldl (fun acc a => mergeField (field a) (value a) acc) 0).toNat := by
    rintro n ⟨a, ha, hpos, rfl⟩
    exact hall a ha hpos
  rcases hone with hone | ⟨a, ha, hpos, hone⟩
  · rcases Set.eq_empty_or_nonempty {n | ∃ a ∈ l, 0 < (field a).toInt ∧ (value a).toNat = n} with
      hempty | ⟨n, hn⟩
    · exact .inl ⟨hempty, hone⟩
    · -- all values have come out as zero
      refine .inr ⟨?_, hbound⟩
      have hzero := hbound n hn
      rw [hone] at hzero ⊢
      rwa [Nat.le_zero.mp hzero] at hn
  · exact .inr ⟨⟨a, ha, hpos, congrArg BitVec.toNat hone.symm⟩, hbound⟩

theorem foldl_merge (l : List (SchedulingPolicy σ)) (acc : U64 × U64) :
    l.foldl merge acc = (l.foldl mergeWeight acc.1, l.foldl mergeBudget acc.2) := by
  induction l generalizing acc with
  | nil => rfl
  | cons policy l ih => exact ih (merge acc policy)

/-! ## The precedence -/

/-- The positive weights of policies. -/
def weightsOf (applying : Set (SchedulingPolicy σ)) : Set Nat :=
  {n | ∃ policy ∈ applying, 0 < policy.weight.toInt ∧ policy.weight.toInt = n}

/-- The positive budgets of policies in nanoseconds. -/
def budgetsOf (applying : Set (SchedulingPolicy σ)) : Set Nat :=
  {ns | ∃ policy ∈ applying, 0 < policy.budgetMicroseconds.toInt ∧ 1000 * policyUs policy = ns}

/-- The default of a QoS class; a pod without a class is as a guaranteed one. -/
def qosWeight : QOSClass → Nat
  | .guaranteed | .unset => 1000
  | .burstable => 800
  | .bestEffort => 200

/-- The weight of a pod, given the policies that apply to it. -/
inductive WeightIs (pod : Pod) (applying : Set (SchedulingPolicy σ)) : Nat → Prop
  | weight {n : Nat} (h : Annotated pod annotationWeight 1 10000 n) : WeightIs pod applying n
  | importance {n : Nat} (hweight : ¬ ∃ n, Annotated pod annotationWeight 1 10000 n)
      (h : Annotated pod annotationImportance 1 100 n) : WeightIs pod applying (100 * n)
  | policies {n : Nat} (hweight : ¬ ∃ n, Annotated pod annotationWeight 1 10000 n)
      (himportance : ¬ ∃ n, Annotated pod annotationImportance 1 100 n)
      (h : IsGreatest (weightsOf applying) n) : WeightIs pod applying n
  | qos (hweight : ¬ ∃ n, Annotated pod annotationWeight 1 10000 n)
      (himportance : ¬ ∃ n, Annotated pod annotationImportance 1 100 n)
      (hnone : weightsOf applying = ∅) :
      WeightIs pod applying (qosWeight pod.qosClass)

/-- The budget of a pod in nanoseconds, given the policies that apply to it. -/
inductive BudgetIs (pod : Pod) (applying : Set (SchedulingPolicy σ)) : Nat → Prop
  | annotated {us : Nat} (h : Annotated pod annotationBudget 1 (2 ^ 64 - 1) us) :
      BudgetIs pod applying (1000 * us)
  | policies {ns : Nat} (hannotated : ¬ ∃ us, Annotated pod annotationBudget 1 (2 ^ 64 - 1) us)
      (h : IsGreatest (budgetsOf applying) ns) : BudgetIs pod applying ns
  | unset (hannotated : ¬ ∃ us, Annotated pod annotationBudget 1 (2 ^ 64 - 1) us)
      (hnone : budgetsOf applying = ∅) : BudgetIs pod applying 0

/-- The positive budgets of policies, in the nanoseconds that are left in
`uint64`. -/
def convertedOf (applying : Set (SchedulingPolicy σ)) : Set Nat :=
  {ns | ∃ policy ∈ applying, 0 < policy.budgetMicroseconds.toInt ∧
    wrappedNs (policyUs policy) = ns}

/-- The budget `Resolve` computes. -/
inductive ConvertedIs (pod : Pod) (applying : Set (SchedulingPolicy σ)) : Nat → Prop
  | annotated {ns : Nat} (h : ConvertedNs pod ns) : ConvertedIs pod applying ns
  | policies {ns : Nat} (hannotated : ¬ ∃ ns, ConvertedNs pod ns)
      (h : IsGreatest (convertedOf applying) ns) : ConvertedIs pod applying ns
  | unset (hannotated : ¬ ∃ ns, ConvertedNs pod ns) (hnone : convertedOf applying = ∅) :
      ConvertedIs pod applying 0

section Unique

variable {pod : Pod} {applying : Set (SchedulingPolicy σ)} {n m : Nat}

theorem WeightIs.unique (hn : WeightIs pod applying n) (hm : WeightIs pod applying m) :
    n = m := by
  cases hn with
  | weight hn =>
    cases hm with
    | weight hm => exact hn.1.unique hm.1
    | importance hw | policies hw | qos hw => exact absurd ⟨_, hn⟩ hw
  | importance hw hn =>
    cases hm with
    | weight hm => exact absurd ⟨_, hm⟩ hw
    | importance _ hm => rw [hn.1.unique hm.1]
    | policies _ hi | qos _ hi => exact absurd ⟨_, hn⟩ hi
  | policies hw hi hn =>
    cases hm with
    | weight hm => exact absurd ⟨_, hm⟩ hw
    | importance _ hm => exact absurd ⟨_, hm⟩ hi
    | policies _ _ hm => exact hn.unique hm
    | qos _ _ hnone => exact absurd hn.1 (hnone ▸ Set.notMem_empty n)
  | qos hw hi hnone =>
    cases hm with
    | weight hm => exact absurd ⟨_, hm⟩ hw
    | importance _ hm => exact absurd ⟨_, hm⟩ hi
    | policies _ _ hm => exact absurd hm.1 (hnone ▸ Set.notMem_empty m)
    | qos => rfl

theorem ConvertedIs.unique (hn : ConvertedIs pod applying n) (hm : ConvertedIs pod applying m) :
    n = m := by
  cases hn with
  | annotated hn =>
    cases hm with
    | annotated hm =>
      obtain ⟨us, hus, rfl, -⟩ := hn
      obtain ⟨us', hus', rfl, -⟩ := hm
      rw [hus.1.unique hus'.1]
    | policies ha | unset ha => exact absurd ⟨_, hn⟩ ha
  | policies ha hn =>
    cases hm with
    | annotated hm => exact absurd ⟨_, hm⟩ ha
    | policies _ hm => exact hn.unique hm
    | unset _ hnone => exact absurd hn.1 (hnone ▸ Set.notMem_empty n)
  | unset ha hnone =>
    cases hm with
    | annotated hm => exact absurd ⟨_, hm⟩ ha
    | policies _ hm => exact absurd hm.1 (hnone ▸ Set.notMem_empty m)
    | unset => rfl

theorem BudgetIs.unique (hn : BudgetIs pod applying n) (hm : BudgetIs pod applying m) :
    n = m := by
  cases hn with
  | annotated hn =>
    cases hm with
    | annotated hm => rw [hn.1.unique hm.1]
    | policies ha | unset ha => exact absurd ⟨_, hn⟩ ha
  | policies ha hn =>
    cases hm with
    | annotated hm => exact absurd ⟨_, hm⟩ ha
    | policies _ hm => exact hn.unique hm
    | unset _ hnone => exact absurd hn.1 (hnone ▸ Set.notMem_empty n)
  | unset ha hnone =>
    cases hm with
    | annotated hm => exact absurd ⟨_, hm⟩ ha
    | policies _ hm => exact absurd hm.1 (hnone ▸ Set.notMem_empty m)
    | unset => rfl

end Unique

/-! ## Budgets that fit into 64 bits -/

section Fits

variable (pod : Pod) (applying : Set (SchedulingPolicy σ))

/-- A pod has a budget: that of its annotation, the largest one of the policies,
or none. -/
theorem exists_budgetIs : ∃ ns, BudgetIs pod applying ns := by
  by_cases ha : ∃ us, Annotated pod annotationBudget 1 (2 ^ 64 - 1) us
  · obtain ⟨us, hus⟩ := ha
    exact ⟨_, .annotated hus⟩
  · rcases Set.eq_empty_or_nonempty (budgetsOf applying) with hnone | hsome
    · exact ⟨0, .unset ha hnone⟩
    · have hbdd : BddAbove (budgetsOf applying) := by
        refine ⟨1000 * 2 ^ 63, ?_⟩
        rintro ns ⟨policy, -, -, rfl⟩
        have hlt := policy.budgetMicroseconds.toInt_lt
        unfold policyUs
        omega
      exact ⟨_, .policies ha ⟨Nat.sSup_mem hsome hbdd, fun _ hns => le_csSup hbdd hns⟩⟩

variable {pod applying}

/-- A budget that fits is converted to what it is. -/
theorem BudgetIs.converted {ns : Nat} (h : BudgetIs pod applying ns) (hfits : ns < 2 ^ 64) :
    ConvertedIs pod applying ns := by
  have hnone : (¬ ∃ us, Annotated pod annotationBudget 1 (2 ^ 64 - 1) us) →
      ¬ ∃ ns, ConvertedNs pod ns := by
    rintro ha ⟨_, us, hus, -⟩
    exact ha ⟨us, hus⟩
  cases h with
  | @annotated us h =>
    have hpos := h.2.1
    exact .annotated ⟨us, h, wrappedNs_of_lt hfits, by omega⟩
  | policies ha h =>
    -- the others are smaller, so they fit as well
    have hsame : convertedOf applying = budgetsOf applying := by
      ext m
      refine exists_congr fun policy => and_congr_right fun hp => and_congr_right fun hpos => ?_
      have hle := h.2 ⟨policy, hp, hpos, rfl⟩
      rw [wrappedNs_of_lt (by omega)]
    exact .policies (hnone ha) (hsame ▸ h)
  | unset ha h =>
    refine .unset (hnone ha) (Set.eq_empty_iff_forall_notMem.mpr ?_)
    rintro m ⟨policy, hp, hpos, -⟩
    have hmem : 1000 * policyUs policy ∈ budgetsOf applying := ⟨policy, hp, hpos, rfl⟩
    rw [h] at hmem
    exact hmem

end Fits

/-! ## What `Resolve` computes -/

section Resolved

variable (ev : Evaluators σ) (order : List (SchedulingPolicy σ)) (pod : Pod)

/-- The policies the loop takes. -/
def chosen : Set (SchedulingPolicy σ) := {policy | policy ∈ order ∧ selects ev policy pod}

theorem signExtend_toNat {w : BitVec 32} (h : 0 < w.toInt) :
    ((w.signExtend 64).toNat : Int) = w.toInt := by
  have hext : (w.signExtend 64).toInt = w.toInt := BitVec.toInt_signExtend_of_le (by omega)
  rw [← hext] at h ⊢
  exact (BitVec.toInt_eq_toNat_of_lt (BitVec.toInt_pos_iff.mp h.le)).symm

theorem weightsOf_chosen :
    weightsOf (chosen ev order pod) =
      {n | ∃ policy ∈ order.filter fun policy => selects ev policy pod,
        0 < policy.weight.toInt ∧ (policy.weight.signExtend 64).toNat = n} := by
  ext n
  simp only [weightsOf, chosen, Set.mem_ofPred_eq, List.mem_filter]
  refine exists_congr fun policy => and_congr_right fun _ => and_congr_right fun hpos => ?_
  rw [← signExtend_toNat hpos]
  exact Int.ofNat_inj

theorem convertedOf_chosen :
    convertedOf (chosen ev order pod) =
      {n | ∃ policy ∈ order.filter fun policy => selects ev policy pod,
        0 < policy.budgetMicroseconds.toInt ∧ (policy.budgetMicroseconds * 1000).toNat = n} := by
  ext n
  simp only [convertedOf, chosen, Set.mem_ofPred_eq, List.mem_filter]
  refine exists_congr fun policy => and_congr_right fun _ => and_congr_right fun hpos => ?_
  rw [toNat_mul_thousand, policyUs,
    BitVec.toInt_eq_toNat_of_lt (BitVec.toInt_pos_iff.mp hpos.le), Int.toNat_natCast]

theorem qosDefaultWeight_toNat (qos : QOSClass) : (qosDefaultWeight qos).toNat = qosWeight qos := by
  cases qos <;> rfl

theorem overrideWith_zero (v : U64) : overrideWith 0 v = v := if_neg (by decide)

theorem overrideWith_pos {annotated : U64} (h : 0 < annotated.toNat) (v : U64) :
    overrideWith annotated v = annotated := by
  refine if_pos (BitVec.lt_def.mpr ?_)
  exact h

theorem weightIs_resolveIn :
    WeightIs pod (chosen ev order pod) (resolveIn ev order pod).weight.toNat := by
  have hlargest := merged_largest (fun policy : SchedulingPolicy σ => policy.weight)
    (fun policy => policy.weight.signExtend 64)
    (order.filter fun policy => selects ev policy pod)
  rw [← weightsOf_chosen] at hlargest
  have hweight : (resolveIn ev order pod).weight =
      overrideWith (parseAnnotationWeight pod.annotations)
        (overrideWith ((order.filter fun policy => selects ev policy pod).foldl mergeWeight 0)
          (qosDefaultWeight pod.qosClass)) := by
    rw [resolveIn, foldl_merge]
  rw [hweight]
  rcases parseAnnotationWeight_cases pod with hw | ⟨hw, ⟨n, hi, hn⟩ | ⟨hi, hzero⟩⟩
  · rw [overrideWith_pos hw.2.1]
    exact .weight hw
  · rw [overrideWith_pos (by have := hi.2.1; omega), hn]
    exact .importance hw hi
  · rw [hzero, overrideWith_zero]
    rcases hlargest with ⟨hnone, hmerged⟩ | hgreatest
    · rw [show (order.filter fun policy => selects ev policy pod).foldl mergeWeight 0 = 0
        from hmerged, overrideWith_zero, qosDefaultWeight_toNat]
      exact .qos hw hi hnone
    · -- the values are positive, so the largest is
      obtain ⟨policy, -, hpos, heq⟩ := hgreatest.1
      rw [overrideWith_pos (by
        have hcast : (0 : Int) < _ := heq ▸ hpos
        exact Int.natCast_pos.mp hcast)]
      exact .policies hw hi hgreatest

theorem convertedIs_resolveIn :
    ConvertedIs pod (chosen ev order pod) (resolveIn ev order pod).budgetNs.toNat := by
  have hlargest := merged_largest (fun policy : SchedulingPolicy σ => policy.budgetMicroseconds)
    (fun policy => policy.budgetMicroseconds * 1000)
    (order.filter fun policy => selects ev policy pod)
  rw [← convertedOf_chosen] at hlargest
  have hbudget : (resolveIn ev order pod).budgetNs =
      overrideWith (parseAnnotationBudget pod.annotations)
        ((order.filter fun policy => selects ev policy pod).foldl mergeBudget 0) := by
    rw [resolveIn, foldl_merge]
  rw [hbudget]
  rcases parseAnnotationBudget_cases pod with ha | ⟨ha, hzero⟩
  · obtain ⟨us, hus, hns, hpos⟩ := ha
    rw [overrideWith_pos hpos]
    exact .annotated ⟨us, hus, hns, hpos⟩
  · rw [hzero, overrideWith_zero]
    rcases hlargest with ⟨hnone, hmerged⟩ | hgreatest
    · rw [show (order.filter fun policy => selects ev policy pod).foldl mergeBudget 0 = 0
        from hmerged]
      exact .unset ha hnone
    · exact .policies ha hgreatest

end Resolved

/-- A weight the API server admits: unset, or from 1 to 10000. -/
def Admitted (policy : SchedulingPolicy σ) : Prop :=
  policy.weight = 0 ∨ 1 ≤ policy.weight.toInt ∧ policy.weight.toInt ≤ 10000

theorem WeightIs.range {pod : Pod} {applying : Set (SchedulingPolicy σ)} {n : Nat}
    (h : WeightIs pod applying n) (hadmitted : ∀ policy ∈ applying, Admitted policy) :
    1 ≤ n ∧ n ≤ 10000 := by
  cases h with
  | weight h => exact h.2
  | importance _ h =>
    have := h.2
    omega
  | policies _ _ h =>
    obtain ⟨policy, hpolicy, hpos, heq⟩ := h.1
    rcases hadmitted policy hpolicy with hzero | hrange
    · rw [hzero] at hpos
      exact absurd hpos (by decide)
    · omega
  | qos => cases pod.qosClass <;> decide

/-- In whatever order `range` visits the policies, `Resolve` returns the weight
of the documented precedence over the policies that apply, and the budget exactly
when that is below `2 ^ 64` nanoseconds. The other policies have no influence: any
number of them can be there or not. With admitted weights the weight is from 1 to
10000. -/
theorem resolve_precedence_iff (describe : EvalError ε → String)
    (selector : σ → Option (StringMap → Bool)) (compile : String → Except ε P)
    (eval : P → Signal × Context → Except ε Value) (r : Resolver σ) (pod : Pod)
    {order : List (SchedulingPolicy σ)} (horder : Enumerates r.policies order) :
    let ev := evaluators describe selector compile eval
    let applying := {policy | policy ∈ order ∧ Applies selector compile eval pod policy}
    let params := resolveIn ev order pod
    (resolve ev r pod).2 = params ∧
      WeightIs pod applying params.weight.toNat ∧
      (∃! ns, BudgetIs pod applying ns) ∧
      (∀ ns, BudgetIs pod applying ns → (params.budgetNs.toNat = ns ↔ ns < 2 ^ 64)) ∧
      (∀ order', (∀ policy, Applies selector compile eval pod policy →
        (policy ∈ order' ↔ policy ∈ order)) → resolveIn ev order' pod = params) ∧
      ((∀ policy ∈ order, Admitted policy) →
        1 ≤ params.weight.toNat ∧ params.weight.toNat ≤ 10000) := by
  intro ev applying params
  have happlying : ∀ l, chosen ev l pod =
      {policy | policy ∈ l ∧ Applies selector compile eval pod policy} := by
    intro l
    ext policy
    exact and_congr_right fun _ => selects_iff describe selector compile eval
  have hchosen : chosen ev order pod = applying := happlying order
  have hweight : WeightIs pod applying params.weight.toNat :=
    hchosen ▸ weightIs_resolveIn ev order pod
  have hbudget : ConvertedIs pod applying params.budgetNs.toNat :=
    hchosen ▸ convertedIs_resolveIn ev order pod
  refine ⟨resolveParams_eq_in ev horder pod, hweight, ?_, ?_, ?_, ?_⟩
  · obtain ⟨ns, hns⟩ := exists_budgetIs pod applying
    exact ⟨ns, hns, fun m hm => hm.unique hns⟩
  · intro ns hns
    exact ⟨fun heq => heq ▸ params.budgetNs.isLt, fun hfits => hbudget.unique (hns.converted hfits)⟩
  · intro order' hsame
    have hset : chosen ev order' pod = applying := by
      rw [happlying]
      ext policy
      exact and_congr_left fun h => hsame policy h
    have hw := (hset ▸ weightIs_resolveIn ev order' pod).unique hweight
    have hb := (hset ▸ convertedIs_resolveIn ev order' pod).unique hbudget
    have hparams : ∀ p q : TaskParams, p.weight = q.weight → p.budgetNs = q.budgetNs → p = q := by
      rintro ⟨_, _⟩ ⟨_, _⟩ rfl rfl
      rfl
    exact hparams _ _ (BitVec.eq_of_toNat_eq hw) (BitVec.eq_of_toNat_eq hb)
  · intro hadmitted
    exact hweight.range fun policy hpolicy => hadmitted policy hpolicy.1

/-- A policy with a condition that does not compile, beside two without. -/
def broken : SchedulingPolicy Unit :=
  { name := "broken", weight := 9000, budgetMicroseconds := 90,
    celCondition := "signal.podName ==" }

def background : SchedulingPolicy Unit := { name := "background", weight := 200 }

def capped : SchedulingPolicy Unit := { name := "capped", budgetMicroseconds := 7 }

def noProgram : Evaluators Unit :=
  evaluators (fun _ : EvalError String => "") (fun _ => none)
    (fun _ => (.error "syntax error" : Except String Unit)) (fun _ _ => .ok (.bool true))

def threePolicies : Resolver Unit :=
  addPolicy (addPolicy (addPolicy newResolver capped) background) broken

/-- A pod with a budget in microseconds. -/
def annotatedWith (us : String) : Pod :=
  { web with annotations := some ((∅ : Finmap _).insert annotationBudget us) }

/-- The budget of the annotation, the weight of one policy, and nothing of the
broken one. -/
theorem resolve_precedence_iff_three :
    (resolve noProgram threePolicies (annotatedWith "300")).2 =
        resolveIn noProgram [broken, background, capped] (annotatedWith "300") ∧
      (resolveIn noProgram [broken, background, capped] (annotatedWith "300")).budgetNs.toNat =
        1000 * 300 ∧
      1 ≤ (resolveIn noProgram [broken, background, capped] (annotatedWith "300")).weight.toNat ∧
      (resolveIn noProgram [broken, background, capped] (annotatedWith "300")).weight.toNat ≤
        10000 := by
  obtain ⟨heq, -, -, hbudget, -, hrange⟩ := resolve_precedence_iff
    (fun _ : EvalError String => "") (fun _ => none)
    (fun _ => (.error "syntax error" : Except String Unit)) (fun _ _ => .ok (.bool true))
    threePolicies (annotatedWith "300")
    (show Enumerates _ [broken, background, capped] from rfl)
  have hannotated : Annotated (annotatedWith "300") annotationBudget 1 (2 ^ 64 - 1) 300 :=
    ⟨(parseUint_eq_some (v := 300)).mp (by decide), by decide, by decide⟩
  refine ⟨heq, (hbudget _ (.annotated hannotated)).mpr (by decide), hrange fun policy hpolicy => ?_⟩
  simp only [List.mem_cons, List.not_mem_nil, or_false] at hpolicy
  rcases hpolicy with rfl | rfl | rfl
  · exact .inr (by decide)
  · exact .inr (by decide)
  · exact .inl rfl

/-- An annotation of `2 ^ 61` microseconds comes out as none, and a policy's 7
microseconds are used in its place. -/
theorem annotation_wraps_away :
    (resolve noProgram threePolicies (annotatedWith "2305843009213693952")).2.budgetNs = 7000 ∧
      BudgetIs (annotatedWith "2305843009213693952") {background, capped} (1000 * 2 ^ 61) := by
  have hannotated : Annotated (annotatedWith "2305843009213693952") annotationBudget 1
      (2 ^ 64 - 1) (2 ^ 61) :=
    ⟨(parseUint_eq_some (v := 2305843009213693952)).mp (by decide), by decide, by decide⟩
  exact ⟨by decide, .annotated hannotated⟩

end K8sSched.Agent.Precedence
