import K8sSched.Lib.Runs
import K8sSched.Agent.Policies

/-! # Resolving while policies come and go

`Resolve` takes the resolver's lock twice: `getMatchingPolicies` computes the
matching names under the first acquisition, `trackMatchedPods` stores them under
the second. Any number of calls, by callers of a type `ι`, interleave with the
informer's `addPolicy` and `removePolicy`. A policy removed between the two
sections of a call that matched it is recorded all the same: without a policy,
or for one that was created anew under its name. -/

namespace K8sSched.Agent.MatchTracking

open K8sSched.Bpf.Params K8sSched.Agent.Pods K8sSched.Agent.Policies
open K8sSched.Lib.GoMap K8sSched.Lib.Runs

variable {σ ι : Type} [DecidableEq ι]

/-- What `Resolve` holds between its two critical sections. -/
structure Call where
  matchedNames : Multiset String
  uid : String

structure Resolving (σ ι : Type) where
  resolver : Resolver σ
  calls : ι → Option Call

inductive Action (σ ι : Type)
  | addPolicy (policy : SchedulingPolicy σ)
  | removePolicy (name : String)
  | getMatchingPolicies (caller : ι) (pod : Pod)
  | trackMatchedPods (caller : ι)

inductive Event
  | removed (name : String)
  | matched (uid : String) (names : Multiset String)
  deriving DecidableEq

/-- One critical section. -/
def step (ev : Evaluators σ) (s : Resolving σ ι) :
    Action σ ι → Option (Resolving σ ι × List Event)
  | .addPolicy policy => some ({ s with resolver := addPolicy s.resolver policy }, [])
  | .removePolicy name =>
    some ({ s with resolver := removePolicy s.resolver name }, [.removed name])
  | .getMatchingPolicies caller pod =>
    match s.calls caller with
    | some _ => none
    | none =>
      let names := (getMatchingPolicies ev s.resolver.policies pod).map SchedulingPolicy.name
      some ({ s with calls := Function.update s.calls caller (some ⟨names, pod.uid⟩) },
        [.matched pod.uid names])
  | .trackMatchedPods caller =>
    match s.calls caller with
    | none => none
    | some c =>
      some ({ resolver := trackMatchedPods s.resolver c.matchedNames c.uid
              calls := Function.update s.calls caller none }, [])

/-- Without anything in between, the two sections are `Resolve`. -/
theorem exec_resolve (ev : Evaluators σ) (s : Resolving σ ι) {caller : ι} (pod : Pod)
    (h : s.calls caller = none) :
    (exec (step ev) s [.getMatchingPolicies caller pod, .trackMatchedPods caller]).map Prod.fst =
      some { s with resolver := (resolve ev s.resolver pod).1 } := by
  have hcalls : Function.update s.calls caller none = s.calls := by
    rw [← h, Function.update_eq_self]
  simp [exec, step, h, hcalls, resolve]

/-! ## Records and the policies they are for -/

/-- The pod matched a policy of this name that has not been removed since. -/
def MatchedSince (tr : List Event) (name uid : String) : Prop :=
  ∃ before after names, tr = before ++ .matched uid names :: after ∧ name ∈ names ∧
    .removed name ∉ after

theorem MatchedSince.append {tr es : List Event} {name uid : String}
    (h : MatchedSince tr name uid) (hes : .removed name ∉ es) :
    MatchedSince (tr ++ es) name uid := by
  obtain ⟨before, after, names, rfl, hname, hafter⟩ := h
  refine ⟨before, after ++ es, names, by simp, hname, ?_⟩
  rw [List.mem_append]
  exact not_or.mpr ⟨hafter, hes⟩

/-- The records of the resolver: each is for a cached policy and of a pod that
matched it since it was created. -/
structure Tracked (tr : List Event) (r : Resolver σ) : Prop where
  cached : ∀ name ∈ r.matchedPods, name ∈ r.policies
  since : ∀ name uid, uid ∈ podsOf r name → MatchedSince tr name uid

/-- No policy is removed while a call that matched it has not stored it yet. -/
def Settled (s : Resolving σ ι) : Action σ ι → Prop
  | .removePolicy name => ∀ caller, ∀ c ∈ s.calls caller, name ∉ c.matchedNames
  | _ => True

instance [Fintype ι] (s : Resolving σ ι) : ∀ a, Decidable (Settled s a)
  | .removePolicy _ => inferInstanceAs (Decidable (∀ _, _))
  | .addPolicy _ | .getMatchingPolicies _ _ | .trackMatchedPods _ => .isTrue trivial

/-- With the names that calls are about to store. -/
structure Inv (tr : List Event) (s : Resolving σ ι) : Prop extends Tracked tr s.resolver where
  pending : ∀ caller, ∀ c ∈ s.calls caller, ∀ name ∈ c.matchedNames,
    name ∈ s.resolver.policies ∧ MatchedSince tr name c.uid

theorem mem_addPolicy (r : Resolver σ) (policy : SchedulingPolicy σ) {name : String}
    (h : name ∈ r.policies) : name ∈ (addPolicy r policy).policies := by
  unfold addPolicy
  split
  · exact h
  · exact Finmap.mem_insert.mpr (.inr h)

theorem addPolicy_matchedPods (r : Resolver σ) (policy : SchedulingPolicy σ) :
    (addPolicy r policy).matchedPods = r.matchedPods := by
  unfold addPolicy
  split <;> rfl

theorem track_policies (r : Resolver σ) (names : Multiset String) (uid : String) :
    (trackMatchedPods r names uid).policies = r.policies := by
  unfold trackMatchedPods
  split <;> rfl

/-- The first loop drops the records without a policy, the second adds the
names. -/
theorem mem_track {r : Resolver σ} {names : Multiset String} {uid name : String} (hu : uid ≠ "")
    (h : name ∈ (trackMatchedPods r names uid).matchedPods) :
    name ∈ names ∨ name ∈ r.policies := by
  by_cases hn : name ∈ names
  · exact .inl hn
  · refine .inr ?_
    obtain ⟨kept, hkept⟩ := Finmap.mem_iff.mp h
    rw [lookup_trackMatchedPods hu, if_neg hn] at hkept
    obtain ⟨pods, -, hpods⟩ := Option.bind_eq_some_iff.mp hkept
    exact (untrack_eq_some.mp hpods).1

section Step

variable {ev : Evaluators σ} {tr : List Event} {s : Resolving σ ι}

theorem Tracked.addPolicy {r : Resolver σ} (h : Tracked tr r) (policy : SchedulingPolicy σ) :
    Tracked tr (addPolicy r policy) := by
  constructor
  · intro name hname
    rw [addPolicy_matchedPods] at hname
    exact mem_addPolicy r policy (h.cached name hname)
  · intro name uid huid
    rw [podsOf, addPolicy_matchedPods] at huid
    exact h.since name uid huid

/-- The records of a removed policy go with it. -/
theorem Tracked.removePolicy {r : Resolver σ} (h : Tracked tr r) (name : String) :
    Tracked (tr ++ [.removed name]) (removePolicy r name) := by
  constructor
  · intro n hn
    obtain ⟨hne, hn⟩ := Finmap.mem_erase.mp hn
    exact Finmap.mem_erase.mpr ⟨hne, h.cached n hn⟩
  · intro n uid huid
    unfold podsOf at huid
    change uid ∈ ((r.matchedPods.erase name).lookup n).getD ∅ at huid
    by_cases hne : n = name
    · rw [hne, Finmap.lookup_erase] at huid
      cases huid
    · rw [Finmap.lookup_erase_ne hne] at huid
      exact (h.since n uid huid).append (by simp [hne])

theorem Tracked.track {r : Resolver σ} (h : Tracked tr r) {c : Call}
    (hc : ∀ name ∈ c.matchedNames, name ∈ r.policies ∧ MatchedSince tr name c.uid) :
    Tracked tr (trackMatchedPods r c.matchedNames c.uid) := by
  by_cases hu : c.uid = ""
  · rw [trackMatchedPods, if_pos hu]
    exact h
  · constructor
    · intro name hname
      rw [track_policies]
      rcases mem_track hu hname with hn | hn
      · exact (hc name hn).1
      · exact hn
    · intro name uid huid
      rw [mem_podsOf_track hu] at huid
      split at huid
      · next heq => rw [heq]; exact (hc name huid).2
      · exact h.since name uid huid.1

theorem Inv.step (h : Inv tr s) {a : Action σ ι} (hok : Settled s a) {t : Resolving σ ι}
    {es : List Event} (hs : step ev s a = some (t, es)) : Inv (tr ++ es) t := by
  cases a with
  | addPolicy policy =>
    cases hs
    rw [List.append_nil]
    refine ⟨h.toTracked.addPolicy policy, fun caller c hc name hname => ?_⟩
    obtain ⟨hcached, hsince⟩ := h.pending caller c hc name hname
    exact ⟨mem_addPolicy _ policy hcached, hsince⟩
  | removePolicy name =>
    cases hs
    refine ⟨h.toTracked.removePolicy name, fun caller c hc n hn => ?_⟩
    obtain ⟨hcached, hsince⟩ := h.pending caller c hc n hn
    have hne : n ≠ name := by
      rintro rfl
      exact hok caller c hc hn
    exact ⟨Finmap.mem_erase.mpr ⟨hne, hcached⟩, hsince.append (by simp [hne])⟩
  | getMatchingPolicies caller pod =>
    simp only [MatchTracking.step] at hs
    split at hs
    · cases hs
    · cases hs
      refine ⟨⟨h.cached, fun name uid huid => (h.since name uid huid).append (by simp)⟩, ?_⟩
      intro caller' c hc name hname
      change c ∈ Function.update s.calls caller _ caller' at hc
      by_cases hcaller : caller' = caller
      · rw [hcaller, Function.update_self] at hc
        cases hc
        refine ⟨?_, tr, [], _, rfl, hname, by simp⟩
        exact mem_of_matchesPolicy ((mem_matchedNames ev s.resolver pod name).mp hname)
      · rw [Function.update_of_ne hcaller] at hc
        obtain ⟨hcached, hsince⟩ := h.pending caller' c hc name hname
        exact ⟨hcached, hsince.append (by simp)⟩
  | trackMatchedPods caller =>
    simp only [MatchTracking.step] at hs
    split at hs
    · cases hs
    · next c hcall =>
      cases hs
      rw [List.append_nil]
      refine ⟨h.toTracked.track (h.pending caller c hcall), fun caller' c' hc name hname => ?_⟩
      rw [track_policies]
      change c' ∈ Function.update s.calls caller _ caller' at hc
      by_cases hcaller : caller' = caller
      · rw [hcaller, Function.update_self] at hc
        cases hc
      · rw [Function.update_of_ne hcaller] at hc
        exact h.pending caller' c' hc name hname

end Step

/-- In every run of any number of `Resolve` calls, additions and removals in
which no policy is removed between the two sections of a call that matched it,
every record is for a cached policy and of a pod that matched it since it was
last created. -/
theorem records_follow_policies (ev : Evaluators σ) {s : Resolving σ ι} {tr : List Event}
    (hrun : Run (step ev) Settled ⟨newResolver, fun _ => none⟩ tr s) :
    (∀ name ∈ s.resolver.matchedPods, name ∈ s.resolver.policies) ∧
      ∀ name uid, uid ∈ podsOf s.resolver name → MatchedSince tr name uid := by
  have h0 : Inv [] (⟨newResolver, fun _ => none⟩ : Resolving σ ι) := by
    refine ⟨⟨fun name hname => ?_, fun name uid huid => ?_⟩, fun caller c hc => ?_⟩
    · exact absurd hname Finmap.notMem_empty
    · simp [podsOf, newResolver] at huid
    · cases hc
  have h := hrun.invariant h0 fun tr t a u es ih hok hs => ih.step hok hs
  exact ⟨h.cached, h.since⟩

/-- Selectors are invalid and conditions fail; a policy without either matches. -/
def plain : Evaluators Unit := ⟨fun _ => none, fun _ _ _ => .error ""⟩

def batch : SchedulingPolicy Unit := { name := "batch", weight := 200 }

def job : Pod := { name := "job", ns := "default", uid := "u1" }

def idle : Resolving Unit Bool := ⟨newResolver, fun _ => none⟩

theorem records_follow_policies_readded :
    ∃ s tr, Run (step plain) Settled idle tr s ∧ "u1" ∈ podsOf s.resolver "batch" ∧
      "batch" ∈ s.resolver.policies := by
  have hrun : Run (step plain) Settled idle _ _ := Run.of_isSome
    [.addPolicy batch, .getMatchingPolicies true job, .trackMatchedPods true,
      .removePolicy "batch", .addPolicy batch, .getMatchingPolicies false job,
      .trackMatchedPods false] (by decide) (by decide)
  exact ⟨_, _, hrun, by decide, (records_follow_policies plain hrun).1 "batch" (by decide)⟩

/-- The policy is removed between the two sections of a call that matched it:
it is recorded without being cached, and recorded when it is created again. -/
theorem records_outlive_policy :
    (exec (step plain) idle [.addPolicy batch, .getMatchingPolicies true job,
        .removePolicy "batch", .trackMatchedPods true]).map
        (fun r => (podsOf r.1.resolver "batch", (r.1.resolver.policies.lookup "batch").isSome)) =
      some ({"u1"}, false) ∧
    (exec (step plain) idle [.addPolicy batch, .getMatchingPolicies true job,
        .removePolicy "batch", .trackMatchedPods true, .addPolicy batch]).map
        (fun r => (podsOf r.1.resolver "batch", (r.1.resolver.policies.lookup "batch").isSome)) =
      some ({"u1"}, true) := by
  decide

end K8sSched.Agent.MatchTracking
