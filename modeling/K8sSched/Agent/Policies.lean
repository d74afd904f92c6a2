import Mathlib.Algebra.Ring.Int.Defs
import Mathlib.Data.Multiset.Fold
import Mathlib.Data.Finset.Card
import K8sSched.Agent.Pods
import K8sSched.Lib.GoMap

/-! # The policy resolver

`internal/policy/resolver.go`: the cache of policies, `Resolve` and the sets of
matched pods. Label selectors and CEL conditions are evaluated by functions
given from outside. The cache is a Go map, so the matching policies come in any
order; they are a multiset, and the loops over them commute. -/

namespace K8sSched.Agent.Policies

open K8sSched.Bpf.Params K8sSched.Agent.Pods K8sSched.Lib.GoMap

variable {σ : Type}

structure SchedulingPolicy (σ : Type) where
  name : String
  resourceVersion : String := ""
  podSelector : Option σ := none
  weight : BitVec 32 := 0
  budgetMicroseconds : BitVec 64 := 0
  celCondition : String := ""

/-- The `signal` variables of a CEL condition. -/
structure Signal where
  podName : String
  podNamespace : String
  podUID : String
  podQOSClass : String
  podPriorityClass : String
  podRestartCount : Int
  podCPURequest : Float
  podCPULimit : Float
  nodeName : String

/-- The `context` variables of a CEL condition. -/
structure Context where
  policyName : String
  weight : Float
  budgetUs : Float

/-- `LabelSelectorAsSelector`, which fails on an invalid selector, and the
evaluation of a CEL condition. -/
structure Evaluators (σ : Type) where
  selector : σ → Option (StringMap → Bool)
  cel : String → Signal → Context → Except String Bool

/-! ## Matching -/

def totalRestarts (pod : Pod) : Int :=
  (pod.containerStatuses.map fun c => c.restartCount.toInt).sum

def aggregatePodCPU (pod : Pod) : Float × Float :=
  let request := pod.containers.foldl (fun n c => n + Float.ofInt c.cpuRequest / 1000.0) 0.0
  let limit := pod.containers.foldl (fun n c => n + Float.ofInt c.cpuLimit / 1000.0) 0.0
  if request.isNaN || limit.isNaN then (0, 0) else (request, limit)

def podSelectorMatches (ev : Evaluators σ) (policy : SchedulingPolicy σ) (pod : Pod) : Bool :=
  match policy.podSelector with
  | none => true
  | some sel =>
    match ev.selector sel with
    | none => false
    | some holds => holds pod.labels

def signalOf (pod : Pod) : Signal where
  podName := pod.name
  podNamespace := pod.ns
  podUID := pod.uid
  podQOSClass := pod.qosClass.name
  podPriorityClass := pod.priorityClassName
  podRestartCount := totalRestarts pod
  podCPURequest := (aggregatePodCPU pod).1
  podCPULimit := (aggregatePodCPU pod).2
  nodeName := pod.nodeName

def contextOf (policy : SchedulingPolicy σ) : Context where
  policyName := policy.name
  weight := Float.ofInt policy.weight.toInt
  budgetUs := Float.ofInt policy.budgetMicroseconds.toInt

/-- A condition that fails to compile or evaluate does not pass. -/
def celConditionPasses (ev : Evaluators σ) (policy : SchedulingPolicy σ) (pod : Pod) : Bool :=
  if policy.celCondition = "" then true
  else
    match ev.cel policy.celCondition (signalOf pod) (contextOf policy) with
    | .ok passes => passes
    | .error _ => false

/-- The selector and the condition of a policy hold for a pod. -/
def selects (ev : Evaluators σ) (policy : SchedulingPolicy σ) (pod : Pod) : Bool :=
  podSelectorMatches ev policy pod && celConditionPasses ev policy pod

/-! ## The cache -/

abbrev PolicyMap (σ : Type) := Finmap fun _ : String => SchedulingPolicy σ

/-- `policies` and `matchedPods` of the resolver; a policy is cached under its
own name. -/
structure Resolver (σ : Type) where
  policies : PolicyMap σ
  matchedPods : Finmap fun _ : String => Finset String
  keyed : ∀ name policy, policies.lookup name = some policy → policy.name = name

def newResolver : Resolver σ := ⟨∅, ∅, by simp⟩

/-- A notification of a version already cached changes nothing. -/
def addPolicy (r : Resolver σ) (policy : SchedulingPolicy σ) : Resolver σ :=
  if ((r.policies.lookup policy.name).any fun old =>
      old.resourceVersion == policy.resourceVersion) then r
  else
    { r with
      policies := r.policies.insert policy.name policy
      keyed := by
        intro name p h
        by_cases hn : name = policy.name
        · subst hn
          rw [Finmap.lookup_insert] at h
          exact congrArg _ (Option.some.inj h).symm
        · rw [Finmap.lookup_insert_of_ne _ hn] at h
          exact r.keyed name p h }

def removePolicy (r : Resolver σ) (name : String) : Resolver σ where
  policies := r.policies.erase name
  matchedPods := r.matchedPods.erase name
  keyed := by
    intro n p h
    by_cases hn : n = name
    · subst hn
      rw [Finmap.lookup_erase] at h
      cases h
    · rw [Finmap.lookup_erase_ne hn] at h
      exact r.keyed n p h

def getMatchingPolicies (ev : Evaluators σ) (policies : PolicyMap σ) (pod : Pod) :
    Multiset (SchedulingPolicy σ) :=
  (policies.entries.map Sigma.snd).filter fun policy => selects ev policy pod

/-! ## Resolution -/

def qosDefaultWeight : QOSClass → U64
  | .guaranteed => 1000
  | .burstable => 800
  | .bestEffort => 200
  | .unset => 1000

/-- The accumulator, or a value above it. -/
def raise (acc v : U64) : U64 := if acc < v then v else acc

/-- A positive field of a policy raises the accumulator to a value. -/
def mergeField {w : Nat} (field : BitVec w) (value acc : U64) : U64 :=
  if 0 < field.toInt then raise acc value else acc

def mergeWeight (acc : U64) (policy : SchedulingPolicy σ) : U64 :=
  mergeField policy.weight (policy.weight.signExtend 64) acc

/-- The product is taken in `uint64`. -/
def mergeBudget (acc : U64) (policy : SchedulingPolicy σ) : U64 :=
  mergeField policy.budgetMicroseconds (policy.budgetMicroseconds * 1000) acc

/-- One round of the loop of `Resolve`, on the weight and the budget so far. -/
def merge (acc : U64 × U64) (policy : SchedulingPolicy σ) : U64 × U64 :=
  (mergeWeight acc.1 policy, mergeBudget acc.2 policy)

theorem raise_toNat (acc v : U64) : (raise acc v).toNat = max acc.toNat v.toNat := by
  unfold raise
  split
  · next h => exact (max_eq_right (BitVec.lt_def.mp h).le).symm
  · next h => exact (max_eq_left (Nat.le_of_not_lt fun hlt => h (BitVec.lt_def.mpr hlt))).symm

theorem raise_right_comm (acc v w : U64) : raise (raise acc v) w = raise (raise acc w) v := by
  apply BitVec.eq_of_toNat_eq
  rw [raise_toNat, raise_toNat, raise_toNat, raise_toNat]
  omega

theorem mergeField_comm {w : Nat} (f g : BitVec w) (v u acc : U64) :
    mergeField g u (mergeField f v acc) = mergeField f v (mergeField g u acc) := by
  unfold mergeField
  by_cases hf : 0 < f.toInt
  · by_cases hg : 0 < g.toInt
    · simp only [hf, hg, if_true]
      exact raise_right_comm acc v u
    · simp only [hg, if_false]
  · simp only [hf, if_false]

instance : RightCommutative (merge (σ := σ)) where
  right_comm _ _ _ := Prod.ext (mergeField_comm _ _ _ _ _) (mergeField_comm _ _ _ _ _)

/-- What `Resolve` returns: the merged policies, then the annotations. -/
def resolveParams (ev : Evaluators σ) (policies : PolicyMap σ) (pod : Pod) : TaskParams :=
  let merged := (getMatchingPolicies ev policies pod).foldl merge (0, 0)
  let weight := overrideWith merged.1 (qosDefaultWeight pod.qosClass)
  { weight := overrideWith (parseAnnotationWeight pod.annotations) weight
    budgetNs := overrideWith (parseAnnotationBudget pod.annotations) merged.2 }

/-! ## Matched pods -/

/-- The first loop of `trackMatchedPods` on one entry: it goes when its policy
is no longer cached or the pod was its last. -/
def untrack (policies : PolicyMap σ) (uid name : String) (pods : Finset String) :
    Option (Finset String) :=
  if (policies.lookup name).isNone then none
  else if pods.erase uid = ∅ then none
  else some (pods.erase uid)

/-- The second loop on one name. -/
def track (uid : String) (matched : Finmap fun _ : String => Finset String) (name : String) :
    Finmap fun _ : String => Finset String :=
  matched.insert name (insert uid ((matched.lookup name).getD ∅))

theorem lookup_track (uid : String) (matched : Finmap fun _ : String => Finset String)
    (name n : String) :
    (track uid matched name).lookup n =
      if n = name then some (insert uid ((matched.lookup n).getD ∅)) else matched.lookup n := by
  unfold track
  split
  · next h => rw [h, Finmap.lookup_insert]
  · next h => exact Finmap.lookup_insert_of_ne _ h

instance (uid : String) : RightCommutative (track uid) where
  right_comm matched a b := by
    apply Finmap.ext_lookup
    intro n
    simp only [lookup_track]
    by_cases ha : n = a
    · subst ha
      by_cases hb : n = b
      · subst hb
        rfl
      · simp [hb]
    · simp [ha]

def trackMatchedPods (r : Resolver σ) (names : Multiset String) (uid : String) : Resolver σ :=
  if uid = "" then r
  else
    { r with
      matchedPods := names.foldl (track uid) (rangeUpdate (untrack r.policies uid) r.matchedPods) }

def resolve (ev : Evaluators σ) (r : Resolver σ) (pod : Pod) : Resolver σ × TaskParams :=
  (trackMatchedPods r ((getMatchingPolicies ev r.policies pod).map SchedulingPolicy.name) pod.uid,
    resolveParams ev r.policies pod)

/-- The pods recorded for a policy. -/
def podsOf (r : Resolver σ) (name : String) : Finset String := (r.matchedPods.lookup name).getD ∅

/-- The number of pods as an `int32`. -/
def activePodCount (r : Resolver σ) (name : String) : BitVec 32 :=
  match r.matchedPods.lookup name with
  | some pods => BitVec.ofNat 32 pods.card
  | none => 0

theorem toInt_activePodCount {r : Resolver σ} {name : String}
    (h : (podsOf r name).card < 2 ^ 31) :
    (activePodCount r name).toInt = (podsOf r name).card := by
  have hcard : activePodCount r name = BitVec.ofNat 32 (podsOf r name).card := by
    unfold activePodCount podsOf
    cases r.matchedPods.lookup name <;> rfl
  rw [hcard, BitVec.toInt_ofNat', Int.bmod_eq_of_le (by omega) (by omega)]

/-- The cached policy of a name selects the pod. -/
def matchesPolicy (ev : Evaluators σ) (policies : PolicyMap σ) (name : String) (pod : Pod) : Bool :=
  (policies.lookup name).any fun policy => selects ev policy pod

theorem mem_matchedNames (ev : Evaluators σ) (r : Resolver σ) (pod : Pod) (name : String) :
    name ∈ (getMatchingPolicies ev r.policies pod).map SchedulingPolicy.name ↔
      matchesPolicy ev r.policies name pod := by
  simp only [getMatchingPolicies, Multiset.mem_map, Multiset.mem_filter, matchesPolicy,
    Option.any_eq_true]
  constructor
  · intro h
    obtain ⟨p, ⟨⟨⟨n, p'⟩, he, rfl⟩, hs⟩, hn⟩ := h
    have hl : r.policies.lookup n = some p' := Finmap.mem_lookup_iff.mpr he
    rw [r.keyed n p' hl] at hn
    subst hn
    exact ⟨p', hl, hs⟩
  · intro h
    obtain ⟨p, hl, hs⟩ := h
    exact ⟨p, ⟨⟨⟨name, p⟩, Finmap.mem_lookup_iff.mp hl, rfl⟩, hs⟩, r.keyed name p hl⟩

theorem mem_of_matchesPolicy {ev : Evaluators σ} {policies : PolicyMap σ} {name : String}
    {pod : Pod} (h : matchesPolicy ev policies name pod) : name ∈ policies := by
  obtain ⟨policy, hlookup, -⟩ := (Option.any_eq_true _ _).mp h
  exact Finmap.mem_iff.mpr ⟨policy, hlookup⟩

theorem lookup_tracks (uid : String) (names : Multiset String)
    (matched : Finmap fun _ : String => Finset String) (n : String) :
    (names.foldl (track uid) matched).lookup n =
      if n ∈ names then some (insert uid ((matched.lookup n).getD ∅)) else matched.lookup n := by
  induction names using Multiset.induction_on generalizing matched with
  | empty => rfl
  | cons name names ih =>
    rw [Multiset.foldl_cons, ih, lookup_track]
    by_cases hn : n = name
    · subst hn
      simp
    · simp [hn]

/-- An entry stays in the first loop when its policy is cached and it has another
pod. -/
theorem untrack_eq_some {policies : PolicyMap σ} {uid name : String} {pods kept : Finset String} :
    untrack policies uid name pods = some kept ↔
      name ∈ policies ∧ kept = pods.erase uid ∧ kept.Nonempty := by
  unfold untrack
  rw [← Finmap.lookup_isSome]
  cases policies.lookup name with
  | none => simp
  | some policy =>
    by_cases he : pods.erase uid = ∅
    · rw [if_neg (by simp), if_pos he]
      refine iff_of_false (by simp) ?_
      rintro ⟨-, rfl, hne⟩
      exact hne.ne_empty he
    · rw [if_neg (by simp), if_neg he, Option.some.injEq]
      constructor
      · rintro rfl
        exact ⟨rfl, rfl, Finset.nonempty_iff_ne_empty.mpr he⟩
      · rintro ⟨-, rfl, -⟩
        rfl

/-- Both loops. -/
theorem lookup_trackMatchedPods {r : Resolver σ} {uid : String} (hu : uid ≠ "")
    (names : Multiset String) (n : String) :
    (trackMatchedPods r names uid).matchedPods.lookup n =
      let kept := (r.matchedPods.lookup n).bind (untrack r.policies uid n)
      if n ∈ names then some (insert uid (kept.getD ∅)) else kept := by
  rw [trackMatchedPods, if_neg hu]
  show (names.foldl (track uid) _).lookup n = _
  rw [lookup_tracks, lookup_rangeUpdate]

theorem getD_untrack (policies : PolicyMap σ) (uid : String)
    (matched : Finmap fun _ : String => Finset String) (n : String) :
    ((matched.lookup n).bind (untrack policies uid n)).getD ∅ =
      if (policies.lookup n).isSome then ((matched.lookup n).getD ∅).erase uid else ∅ := by
  cases matched.lookup n with
  | none => simp
  | some pods =>
    show (untrack policies uid n pods).getD ∅ = _
    unfold untrack
    cases policies.lookup n with
    | none => rfl
    | some p =>
      by_cases he : pods.erase uid = ∅
      · simp [he]
      · simp [he]

/-- After `trackMatchedPods` the pod is recorded for the given names, and every
other pod where it was, as long as the policy is cached. -/
theorem mem_podsOf_track {r : Resolver σ} {uid : String} (hu : uid ≠ "") (names : Multiset String)
    (n u : String) :
    u ∈ podsOf (trackMatchedPods r names uid) n ↔
      if u = uid then n ∈ names else u ∈ podsOf r n ∧ (r.policies.lookup n).isSome := by
  have hkept := getD_untrack r.policies uid r.matchedPods n
  have hpods : podsOf (trackMatchedPods r names uid) n =
      if n ∈ names then
        insert uid (((r.matchedPods.lookup n).bind (untrack r.policies uid n)).getD ∅)
      else ((r.matchedPods.lookup n).bind (untrack r.policies uid n)).getD ∅ := by
    rw [podsOf, lookup_trackMatchedPods hu]
    split <;> rfl
  rw [hpods, hkept, podsOf]
  by_cases huid : u = uid
  · subst huid
    by_cases hn : n ∈ names
    · simp [hn]
    · cases r.policies.lookup n <;> simp [hn]
  · by_cases hn : n ∈ names
    · cases r.policies.lookup n <;> simp [hn, huid]
    · cases r.policies.lookup n <;> simp [hn, huid]

theorem resolve_policies (ev : Evaluators σ) (r : Resolver σ) (pod : Pod) :
    (resolve ev r pod).1.policies = r.policies := by
  show (trackMatchedPods r _ pod.uid).policies = _
  unfold trackMatchedPods
  split <;> rfl

/-- `Resolve` records the pod for the policies that match it. -/
theorem mem_podsOf_resolve {ev : Evaluators σ} {r : Resolver σ} {pod : Pod} (hu : pod.uid ≠ "")
    (n u : String) :
    u ∈ podsOf (resolve ev r pod).1 n ↔
      if u = pod.uid then matchesPolicy ev r.policies n pod = true
      else u ∈ podsOf r n ∧ (r.policies.lookup n).isSome := by
  rw [← mem_matchedNames]
  exact mem_podsOf_track hu _ n u

end K8sSched.Agent.Policies
