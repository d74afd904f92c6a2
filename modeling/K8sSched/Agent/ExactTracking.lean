import K8sSched.Agent.MatchTracking
import K8sSched.Agent.Precedence

/-! # What is recorded of matched pods

`trackMatchedPods` of `internal/policy/resolver.go`, loop by loop. The first loop
ranges over `matchedPods` in any order and deletes from it on the way: entries
without a policy, the pod from all others, and those it was the last pod of. The
second loop inserts the pod under the names it was given. In the end the pod is
recorded for these names and no others, and nothing else has changed. So, as long
as no policy is removed, `matchedPods` is the relation that the last `Resolve` of
each pod gives. -/

namespace K8sSched.Agent.ExactTracking

open K8sSched.Agent.Pods K8sSched.Agent.Policies K8sSched.Agent.MatchTracking
open K8sSched.Agent.Precedence (Enumerates)
open K8sSched.Lib.GoMap K8sSched.Lib.Runs

variable {σ : Type}

/-! ## The loops in the order in which they run -/

/-- `trackMatchedPods` with the order of its range and the order of the names. -/
def trackMatchedPodsIn (order : List String) (r : Resolver σ) (names : List String)
    (uid : String) : Resolver σ :=
  if uid = "" then r
  else
    { r with
      matchedPods := names.foldl (track uid)
        (order.foldl (rangeOne (untrack r.policies uid)) r.matchedPods) }

theorem trackMatchedPods_eq_in {order : List String} {r : Resolver σ}
    (h : Ranges r.matchedPods order) (names : List String) (uid : String) :
    trackMatchedPodsIn order r names uid = trackMatchedPods r names uid := by
  unfold trackMatchedPodsIn trackMatchedPods
  rw [foldl_rangeOne _ h, Multiset.coe_foldl]

/-- `Resolve` in any order of its three ranges. -/
theorem resolve_eq_in (ev : Evaluators σ) {r : Resolver σ} {policies : List (SchedulingPolicy σ)}
    {order : List String} (hpolicies : Enumerates r.policies policies)
    (horder : Ranges r.matchedPods order) (pod : Pod) :
    (resolve ev r pod).1 = trackMatchedPodsIn order r
      ((policies.filter fun policy => selects ev policy pod).map SchedulingPolicy.name)
      pod.uid := by
  have hnames : (getMatchingPolicies ev r.policies pod).map SchedulingPolicy.name =
      (((policies.filter fun policy => selects ev policy pod).map SchedulingPolicy.name :
        List String) : Multiset String) := by
    rw [getMatchingPolicies, ← hpolicies, Multiset.filter_coe, Multiset.map_coe]
    simp
  rw [trackMatchedPods_eq_in horder, resolve, hnames]

/-! ## One update -/

/-- The second resolver is the first with the pod recorded for the names. -/
structure ExactUpdate (r : Resolver σ) (names : Multiset String) (uid : String)
    (t : Resolver σ) : Prop where
  policies : t.policies = r.policies
  recorded : ∀ name, uid ∈ podsOf t name ↔ name ∈ names
  others : ∀ u, u ≠ uid → ∀ name ∈ r.policies, (u ∈ podsOf t name ↔ u ∈ podsOf r name)
  cached : ∀ name ∈ t.matchedPods, name ∈ t.policies
  nonempty : ∀ name pods, t.matchedPods.lookup name = some pods → pods.Nonempty

theorem exactUpdate_track {r : Resolver σ} {names : Multiset String} {uid : String}
    (hcached : ∀ name ∈ names, name ∈ r.policies) (hu : uid ≠ "") :
    ExactUpdate r names uid (trackMatchedPods r names uid) := by
  refine ⟨track_policies r names uid, fun name => ?_, fun u hne name hname => ?_,
    fun name hname => ?_, fun name pods hpods => ?_⟩
  · rw [mem_podsOf_track hu, if_pos rfl]
  · rw [mem_podsOf_track hu, if_neg hne, Finmap.lookup_isSome]
    exact and_iff_left hname
  · rw [track_policies]
    rcases mem_track hu hname with hn | hn
    · exact hcached name hn
    · exact hn
  · rw [lookup_trackMatchedPods hu] at hpods
    split at hpods
    · cases hpods
      exact Finset.insert_nonempty _ _
    · obtain ⟨before, -, hkept⟩ := Option.bind_eq_some_iff.mp hpods
      exact (untrack_eq_some.mp hkept).2.2

/-! ## Resolving and adding -/

inductive Action (σ : Type)
  | resolve (pod : Pod)
  | addPolicy (policy : SchedulingPolicy σ)

/-- A call of `Resolve`: the pod, and the policies that were cached then. -/
structure Resolution (σ : Type) where
  pod : Pod
  policies : PolicyMap σ

def step (ev : Evaluators σ) (r : Resolver σ) :
    Action σ → Option (Resolver σ × List (Resolution σ))
  | .resolve pod => some ((resolve ev r pod).1, [⟨pod, r.policies⟩])
  | .addPolicy policy => some (addPolicy r policy, [])

def HasUID (_ : Resolver σ) : Action σ → Prop
  | .resolve pod => pod.uid ≠ ""
  | .addPolicy _ => True

instance (r : Resolver σ) : ∀ a, Decidable (HasUID r a)
  | .resolve _ => inferInstanceAs (Decidable (_ ≠ _))
  | .addPolicy _ => .isTrue trivial

/-- The last `Resolve` of the pod found a policy of this name that matches. -/
def LastMatched (ev : Evaluators σ) (tr : List (Resolution σ)) (name uid : String) : Prop :=
  Since (fun e => e.pod.uid = uid ∧ matchesPolicy ev e.policies name e.pod)
    (fun e => e.pod.uid = uid) tr

instance (ev : Evaluators σ) (tr : List (Resolution σ)) (name uid : String) :
    Decidable (LastMatched ev tr name uid) :=
  inferInstanceAs (Decidable (Since _ _ tr))

/-- `matchedPods` has the pods of the relation under each name, and no other key. -/
structure IsLastMatched (ev : Evaluators σ) (tr : List (Resolution σ)) (r : Resolver σ) :
    Prop where
  pods : ∀ name uid, uid ∈ podsOf r name ↔ LastMatched ev tr name uid
  keys : ∀ name, name ∈ r.matchedPods ↔ ∃ uid, LastMatched ev tr name uid

structure Inv (ev : Evaluators σ) (tr : List (Resolution σ)) (r : Resolver σ) : Prop where
  pods : ∀ name uid, uid ∈ podsOf r name ↔ LastMatched ev tr name uid
  cached : ∀ name ∈ r.matchedPods, name ∈ r.policies
  nonempty : ∀ name pods, r.matchedPods.lookup name = some pods → pods.Nonempty

theorem mem_matchedPods_of_podsOf {r : Resolver σ} {name uid : String}
    (h : uid ∈ podsOf r name) : name ∈ r.matchedPods := by
  by_contra hnot
  rw [podsOf, Finmap.lookup_eq_none.mpr hnot] at h
  cases h

section Inv

variable {ev : Evaluators σ} {tr : List (Resolution σ)} {r : Resolver σ}

theorem inv_newResolver : Inv ev [] newResolver := by
  refine ⟨fun name uid => iff_of_false (fun h => ?_) (not_since_nil _ _),
    fun name h => ?_, fun name pods h => ?_⟩
  · exact Finmap.notMem_empty (mem_matchedPods_of_podsOf h)
  · exact absurd h Finmap.notMem_empty
  · cases h

theorem Inv.addPolicy (h : Inv ev tr r) (policy : SchedulingPolicy σ) :
    Inv ev tr (addPolicy r policy) := by
  have hsame := addPolicy_matchedPods r policy
  refine ⟨fun name uid => ?_, fun name hname => ?_, fun name pods hpods => ?_⟩
  · rw [podsOf, hsame]
    exact h.pods name uid
  · rw [hsame] at hname
    exact mem_addPolicy r policy (h.cached name hname)
  · rw [hsame] at hpods
    exact h.nonempty name pods hpods

/-- An exact update with the names that match takes the relation on to the next
call. -/
theorem Inv.resolution (h : Inv ev tr r) {pod : Pod} {names : Multiset String} {t : Resolver σ}
    (hnames : ∀ name, name ∈ names ↔ matchesPolicy ev r.policies name pod)
    (ht : ExactUpdate r names pod.uid t) : Inv ev (tr ++ [⟨pod, r.policies⟩]) t := by
  refine ⟨fun name uid => ?_, ht.cached, ht.nonempty⟩
  rw [LastMatched, since_concat]
  by_cases huid : uid = pod.uid
  · subst huid
    rw [ht.recorded, hnames]
    simp
  · have hne : pod.uid ≠ uid := Ne.symm huid
    simp only [hne, false_and, false_or, not_false_eq_true, true_and]
    rw [← LastMatched, ← h.pods]
    by_cases hcached : name ∈ r.policies
    · exact ht.others uid huid name hcached
    · -- neither resolver has an entry of a policy that is not cached
      refine iff_of_false (fun hu => ?_) fun hu => ?_
      · exact hcached (ht.policies ▸ ht.cached name (mem_matchedPods_of_podsOf hu))
      · exact hcached (h.cached name (mem_matchedPods_of_podsOf hu))

theorem Inv.step (h : Inv ev tr r) {a : Action σ} (hok : HasUID r a) {t : Resolver σ}
    {es : List (Resolution σ)} (hs : step ev r a = some (t, es)) : Inv ev (tr ++ es) t := by
  cases a with
  | resolve pod =>
    cases hs
    have hnames := mem_matchedNames ev r pod
    refine h.resolution hnames (exactUpdate_track (fun name hname => ?_) hok)
    exact mem_of_matchesPolicy ((hnames name).mp hname)
  | addPolicy policy =>
    cases hs
    rw [List.append_nil]
    exact h.addPolicy policy

theorem Inv.isLastMatched (h : Inv ev tr r) : IsLastMatched ev tr r := by
  refine ⟨h.pods, fun name => ⟨fun hname => ?_, fun hname => ?_⟩⟩
  · obtain ⟨pods, hpods⟩ := Finmap.mem_iff.mp hname
    obtain ⟨uid, huid⟩ := h.nonempty name pods hpods
    refine ⟨uid, (h.pods name uid).mp ?_⟩
    rw [podsOf, hpods]
    exact huid
  · obtain ⟨uid, huid⟩ := hname
    exact mem_matchedPods_of_podsOf ((h.pods name uid).mpr huid)

end Inv

/-- In every state and every order of its range, `trackMatchedPods` records the
pod for the names it is given and changes nothing else about cached policies; and
on every run of `Resolve` and `addPolicy` from a new resolver, `matchedPods` is
the relation the last `Resolve` of each pod gives. -/
theorem matched_pods_exact (ev : Evaluators σ) :
    (∀ (r : Resolver σ) (order names : List String) (uid : String),
      Ranges r.matchedPods order → (∀ name ∈ names, name ∈ r.policies) → uid ≠ "" →
        ExactUpdate r names uid (trackMatchedPodsIn order r names uid)) ∧
    ∀ (tr : List (Resolution σ)) (r : Resolver σ),
      Run (step ev) HasUID newResolver tr r → IsLastMatched ev tr r := by
  constructor
  · intro r order names uid horder hcached hu
    rw [trackMatchedPods_eq_in horder]
    exact exactUpdate_track hcached hu
  · intro tr r hrun
    have hinv : Inv ev tr r :=
      hrun.invariant inv_newResolver fun tr r a t es h hok hs => h.step hok hs
    exact hinv.isLastMatched

def interactive : SchedulingPolicy Unit := { name := "interactive", podSelector := some () }

/-- Two policies, and the records of a third one. -/
def recorded : Resolver Unit :=
  { addPolicy (addPolicy newResolver batch) interactive with
    matchedPods := ((Finmap.singleton "batch" {"u1", "u2"}).insert "interactive" {"u1"}).insert
      "gone" {"u1", "u3"} }

def moved : Resolver Unit :=
  trackMatchedPodsIn ["gone", "interactive", "batch"] recorded ["interactive"] "u1"

/-- A pod moves from one policy to another, past an entry without a policy; and a
pod matches a policy that was added between two calls. -/
theorem matched_pods_exact_moved :
    ("u1" ∈ podsOf moved "interactive" ∧ "u1" ∉ podsOf moved "batch" ∧
      "u2" ∈ podsOf moved "batch" ∧ "gone" ∉ moved.matchedPods) ∧
    ∃ r tr, Run (step plain) HasUID newResolver tr r ∧ "u1" ∈ podsOf r "batch" ∧
      "batch" ∈ r.matchedPods := by
  constructor
  · have h : ExactUpdate recorded _ "u1" moved := (matched_pods_exact plain).1 recorded
      ["gone", "interactive", "batch"] ["interactive"] "u1" (by decide) (by decide) (by decide)
    refine ⟨(h.recorded _).mpr (by decide), fun hu => ?_,
      (h.others "u2" (by decide) "batch" (by decide)).mpr (by decide), fun hgone => ?_⟩
    · exact absurd ((h.recorded _).mp hu) (by decide)
    · exact absurd (h.cached _ hgone) (by decide)
  · have hrun : Run (step plain) HasUID newResolver _ _ :=
      Run.of_isSome [.resolve job, .addPolicy batch, .resolve job] (by decide) (by decide)
    have h := (matched_pods_exact plain).2 _ _ hrun
    exact ⟨_, _, hrun, (h.pods _ _).mpr (by decide), (h.keys _).mpr ⟨"u1", by decide⟩⟩

end K8sSched.Agent.ExactTracking
