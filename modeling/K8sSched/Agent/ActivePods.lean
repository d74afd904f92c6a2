import K8sSched.Agent.Watcher

/-! # Active pod counts

`ActivePodCount` reports, per policy, how many pods the resolver has recorded.
A pod is recorded when it is resolved and taken off only by its next `Resolve`;
neither its deletion nor the end of its Running phase reaches the resolver. So
the count is that of the UIDs whose last `Resolve` matched, as far as an `int32`
holds it, which is the number of Running pods exactly as long as each of those pods
is still there. -/

namespace K8sSched.Agent.ActivePods

open K8sSched.Agent.Pods K8sSched.Agent.Policies K8sSched.Agent.Watcher
open K8sSched.Lib.Runs
open K8sSched.Lib.GoMap (lookup_insert_eq_some lookup_erase_eq_some)

variable {σ : Type}

/-- A notification of a pod as the API server names them: with a UID, and not
that of another pod in the store. -/
def Genuine (a : AgentState σ) (n : Notification σ) : Prop :=
  n.pod?.isSome ∧ ∀ pod ∈ n.pod?, pod.uid ≠ "" ∧
    ∀ key ∈ a.pods.keys, key ≠ keyOf pod → (a.pods.lookup key).map Pod.uid ≠ some pod.uid

instance (a : AgentState σ) (n : Notification σ) : Decidable (Genuine a n) :=
  inferInstanceAs (Decidable (_ ∧ _))

/-- The pod with this UID matched the policy when it was last resolved. -/
def matchedLast (ev : Evaluators σ) (policies : PolicyMap σ) (tr : List Event) (name uid : String) :
    Bool :=
  (lastUpdate tr uid).any fun u => matchesPolicy ev policies name u.1

/-- The pod is Running and matched the policy when it was last resolved. -/
def runsMatched (ev : Evaluators σ) (a : AgentState σ) (tr : List Event) (name : String)
    (pod : Pod) : Bool :=
  pod.phase = .running && matchedLast ev a.resolver.policies tr name pod.uid

/-- The number of Running pods that matched a policy at their last handled
update. -/
def runningMatching (ev : Evaluators σ) (a : AgentState σ) (tr : List Event) (name : String) :
    Nat :=
  (a.pods.keys.filter fun key => (a.pods.lookup key).any (runsMatched ev a tr name)).card

/-- What every run of pod notifications keeps: the policies, the recorded pods
and the distinct UIDs. -/
structure Recorded (ev : Evaluators σ) (policies : PolicyMap σ) (tr : List Event)
    (a : AgentState σ) : Prop where
  fixed : a.resolver.policies = policies
  recorded : ∀ name uid, uid ∈ podsOf a.resolver name ↔ matchedLast ev policies tr name uid
  distinct : ∀ k k' p p', a.pods.lookup k = some p → a.pods.lookup k' = some p' →
    p.uid = p'.uid → k = k'

theorem matchedLast_of_none {ev : Evaluators σ} {policies : PolicyMap σ} {tr es : List Event}
    {name uid : String} (h : lastUpdate es uid = none) :
    matchedLast ev policies (tr ++ es) name uid = matchedLast ev policies tr name uid := by
  rw [matchedLast, lastUpdate_append, h]
  rfl

theorem mem_of_matchedLast {ev : Evaluators σ} {policies : PolicyMap σ} {tr : List Event}
    {name uid : String} (h : matchedLast ev policies tr name uid) :
    uid ∈ tr.map fun e => e.pod.uid := by
  obtain ⟨u, hu, -⟩ := (Option.any_eq_true _ _).mp h
  obtain ⟨e, he, hupdate⟩ := List.exists_of_findSome?_eq_some hu
  refine List.mem_map.mpr ⟨e, List.mem_reverse.mp he, ?_⟩
  by_contra hne
  rw [updateOf_of_ne hne] at hupdate
  cases hupdate

section Step

variable {ev : Evaluators σ} {policies : PolicyMap σ} {tr : List Event} {a b : AgentState σ}
  {pod : Pod}

theorem Recorded.distinct_insert (h : Recorded ev policies tr a)
    (hother : ∀ key ∈ a.pods.keys, key ≠ keyOf pod → (a.pods.lookup key).map Pod.uid ≠ some pod.uid)
    (hb : b.pods = a.pods.insert (keyOf pod) pod) :
    ∀ k k' p p', b.pods.lookup k = some p → b.pods.lookup k' = some p' →
      p.uid = p'.uid → k = k' := by
  have hnew : ∀ k p, k ≠ keyOf pod → a.pods.lookup k = some p → p.uid ≠ pod.uid := by
    intro k p hk hp heq
    refine hother k ?_ hk (by rw [hp, ← heq]; rfl)
    rw [Finmap.mem_keys, Finmap.mem_iff]
    exact ⟨p, hp⟩
  intro k k' p p' hp hp' huid
  rw [hb] at hp hp'
  rcases lookup_insert_eq_some.mp hp with ⟨hk, rfl⟩ | ⟨hk, hp⟩
  · rcases lookup_insert_eq_some.mp hp' with ⟨hk', rfl⟩ | ⟨hk', hp'⟩
    · rw [hk, hk']
    · exact absurd huid.symm (hnew k' p' hk' hp')
  · rcases lookup_insert_eq_some.mp hp' with ⟨hk', rfl⟩ | ⟨hk', hp'⟩
    · exact absurd huid (hnew k p hk hp)
    · exact h.distinct k k' p p' hp hp' huid

theorem Recorded.distinct_erase (h : Recorded ev policies tr a) {key : PodKey}
    (hb : b.pods = a.pods.erase key) :
    ∀ k k' p p', b.pods.lookup k = some p → b.pods.lookup k' = some p' →
      p.uid = p'.uid → k = k' := by
  have hold : ∀ k p, b.pods.lookup k = some p → a.pods.lookup k = some p := by
    intro k p hp
    rw [hb] at hp
    exact (lookup_erase_eq_some.mp hp).2
  exact fun k k' p p' hp hp' => h.distinct k k' p p' (hold k p hp) (hold k' p' hp')

theorem Recorded.recorded_same (h : Recorded ev policies tr a) {es : List Event}
    (hr : b.resolver = a.resolver) (hes : es = [] ∨ es = [.removed pod]) :
    ∀ name uid, uid ∈ podsOf b.resolver name ↔ matchedLast ev policies (tr ++ es) name uid := by
  intro name uid
  have hnone : lastUpdate es uid = none := by
    rcases hes with rfl | rfl <;> rfl
  rw [hr, matchedLast_of_none hnone]
  exact h.recorded name uid

theorem Recorded.recorded_resolve (h : Recorded ev policies tr a) (hu : pod.uid ≠ "")
    {params : Bpf.Params.TaskParams} {err : Option String}
    (hr : b.resolver = (resolve ev a.resolver pod).1) :
    ∀ name uid, uid ∈ podsOf b.resolver name ↔
      matchedLast ev policies (tr ++ [.updated pod params err]) name uid := by
  intro name uid
  rw [hr, mem_podsOf_resolve hu, h.fixed]
  by_cases huid : uid = pod.uid
  · subst huid
    simp [matchedLast, lastUpdate, Event.updateOf]
  · have hnone : lastUpdate [.updated pod params err] uid = none := by
      simp [lastUpdate, Event.updateOf, Ne.symm huid]
    rw [if_neg huid, matchedLast_of_none hnone, h.recorded, and_iff_left_iff_imp]
    -- a pod recorded for a name matched a policy of that name
    intro hm
    obtain ⟨u, -, hu⟩ := Option.any_eq_true _ _ |>.mp hm
    obtain ⟨p, hp, -⟩ := Option.any_eq_true _ _ |>.mp hu
    rw [hp]
    rfl

theorem Recorded.step (h : Recorded ev policies tr a) {n : Notification σ} {es : List Event}
    (hok : Genuine a n) (hs : step ev a n = some (b, es)) : Recorded ev policies (tr ++ es) b := by
  obtain ⟨hsome, hgenuine⟩ := hok
  cases step_does hs with
  | policy hn =>
    rw [hn] at hsome
    cases hsome
  | resolved err hn _ hr hb =>
    obtain ⟨hu, hother⟩ := hgenuine _ hn
    exact ⟨by rw [hr, resolve_policies, h.fixed], h.recorded_resolve hu hr,
      h.distinct_insert hother hb⟩
  | stored hn hr hb hes =>
    obtain ⟨-, hother⟩ := hgenuine _ hn
    exact ⟨by rw [hr, h.fixed], h.recorded_same hr hes, h.distinct_insert hother hb⟩
  | deleted hn hr hb =>
    exact ⟨by rw [hr, h.fixed], h.recorded_same hr (.inr rfl), h.distinct_erase hb⟩

end Step

/-! ## The count -/

/-- The UID under which a pod of the store is recorded. -/
def uidAt (a : AgentState σ) (key : PodKey) : String := ((a.pods.lookup key).map Pod.uid).getD ""

theorem uidAt_of_lookup {a : AgentState σ} {key : PodKey} {pod : Pod}
    (h : a.pods.lookup key = some pod) : uidAt a key = pod.uid := by
  rw [uidAt, h]
  rfl

section Count

variable {ev : Evaluators σ} {policies : PolicyMap σ} {tr : List Event} {a : AgentState σ}

theorem Recorded.mem_image (h : Recorded ev policies tr a) (name uid : String) :
    uid ∈ (a.pods.keys.filter fun key =>
        (a.pods.lookup key).any (runsMatched ev a tr name)).image (uidAt a) ↔
      matchedLast ev policies tr name uid ∧
        ∃ key pod, a.pods.lookup key = some pod ∧ pod.uid = uid ∧ pod.phase = .running := by
  simp only [Finset.mem_image, Finset.mem_filter, Option.any_eq_true, runsMatched, h.fixed,
    Bool.and_eq_true, decide_eq_true_eq]
  constructor
  · intro h
    obtain ⟨key, ⟨-, pod, hpod, hphase, hmatch⟩, huid⟩ := h
    rw [uidAt_of_lookup hpod] at huid
    subst huid
    exact ⟨hmatch, key, pod, hpod, rfl, hphase⟩
  · intro h
    obtain ⟨hmatch, key, pod, hpod, rfl, hphase⟩ := h
    refine ⟨key, ⟨?_, pod, hpod, hphase, hmatch⟩, uidAt_of_lookup hpod⟩
    rw [Finmap.mem_keys, Finmap.mem_iff]
    exact ⟨pod, hpod⟩

/-- Distinct pods have distinct UIDs, so counting pods is counting UIDs. -/
theorem Recorded.card_image (h : Recorded ev policies tr a) (name : String) :
    ((a.pods.keys.filter fun key =>
      (a.pods.lookup key).any (runsMatched ev a tr name)).image (uidAt a)).card =
      runningMatching ev a tr name := by
  refine Finset.card_image_of_injOn ?_
  intro k hk k' hk' huid
  obtain ⟨p, hp, -⟩ := (Option.any_eq_true _ _).mp (Finset.mem_filter.mp hk).2
  obtain ⟨p', hp', -⟩ := (Option.any_eq_true _ _).mp (Finset.mem_filter.mp hk').2
  rw [uidAt_of_lookup hp, uidAt_of_lookup hp'] at huid
  exact h.distinct k k' p p' hp hp' huid

theorem Recorded.count_iff (h : Recorded ev policies tr a) {name : String}
    (hsmall : (podsOf a.resolver name).card < 2 ^ 31) :
    (activePodCount a.resolver name).toInt = runningMatching ev a tr name ↔
      ∀ uid, matchedLast ev policies tr name uid →
        ∃ key pod, a.pods.lookup key = some pod ∧ pod.uid = uid ∧ pod.phase = .running := by
  rw [toInt_activePodCount hsmall, Nat.cast_inj, ← h.card_image]
  have hsub : (a.pods.keys.filter fun key =>
      (a.pods.lookup key).any (runsMatched ev a tr name)).image (uidAt a) ⊆
      podsOf a.resolver name := by
    intro uid huid
    exact (h.recorded name uid).mpr ((h.mem_image name uid).mp huid).1
  constructor
  · intro hcard uid hmatch
    have heq := Finset.eq_of_subset_of_card_le hsub hcard.le
    have hmem : uid ∈ podsOf a.resolver name := (h.recorded name uid).mpr hmatch
    rw [← heq] at hmem
    exact ((h.mem_image name uid).mp hmem).2
  · intro hall
    refine congrArg Finset.card (Finset.Subset.antisymm ?_ hsub)
    intro uid huid
    have hmatch := (h.recorded name uid).mp huid
    exact (h.mem_image name uid).mpr ⟨hmatch, hall uid hmatch⟩

end Count

/-- In every state a run of pod notifications reaches, with fewer pods recorded for
a policy than an `int32` can count: its count is the number of Running pods that
matched it at their last handled update exactly when every pod that matched at its
last handled update is still there and Running. -/
theorem activePodCount_iff (ev : Evaluators σ) {start a : AgentState σ} {tr : List Event}
    (hpods : start.pods = ∅) (hmatched : start.resolver.matchedPods = ∅)
    (hrun : Run (step ev) Genuine start tr a) {name : String}
    (hsmall : (podsOf a.resolver name).card < 2 ^ 31) :
    (activePodCount a.resolver name).toInt = runningMatching ev a tr name ↔
      ∀ uid, matchedLast ev a.resolver.policies tr name uid →
        ∃ key pod, a.pods.lookup key = some pod ∧ pod.uid = uid ∧ pod.phase = .running := by
  have h0 : Recorded ev start.resolver.policies [] start := by
    refine ⟨rfl, ?_, ?_⟩
    · intro name uid
      simp [podsOf, hmatched, matchedLast, lastUpdate]
    · intro k k' p p' hp
      rw [hpods] at hp
      cases hp
  have h := hrun.invariant (I := Recorded ev start.resolver.policies) h0
    fun tr t n u es ih hok hs => ih.step hok hs
  rw [h.fixed]
  exact h.count_iff hsmall

/-- The agent with one cached policy. -/
def withPolicy (policy : SchedulingPolicy σ) : AgentState σ :=
  ⟨addPolicy newResolver policy, MapOps.opened true true, ∅⟩

def db : Pod := { web with name := "db", uid := "u2" }

/-- Comes and goes without ever being Running. -/
def job : Pod := { web with name := "job", uid := "u3", phase := .pending }

def relabelled : Pod := { web with labels := some (Finmap.singleton "tier" "front") }

theorem activePodCount_iff_running :
    ∃ tr a, Run (step selectNothing) Genuine (withPolicy latencyCritical) tr a ∧
      runningMatching selectNothing a tr "latency-critical" = 2 ∧
      (activePodCount a.resolver "latency-critical").toInt =
        runningMatching selectNothing a tr "latency-critical" := by
  have hrun : Run (step selectNothing) Genuine (withPolicy latencyCritical) _ _ :=
    Run.of_isSome [.podAdd web {}, .podAdd db {}, .podAdd job {}, .podUpdate relabelled {},
      .podDelete job {}] (by decide) (by decide)
  refine ⟨_, _, hrun, by decide,
    (activePodCount_iff selectNothing rfl rfl hrun (by decide)).mpr ?_⟩
  intro uid hmatch
  have huid : uid ∈ ["u1", "u2", "u1", "u3"] := mem_of_matchedLast hmatch
  simp only [List.mem_cons, List.not_mem_nil, or_false] at huid
  rcases huid with rfl | rfl | rfl | rfl
  · exact ⟨keyOf relabelled, relabelled, by decide, rfl, rfl⟩
  · exact ⟨keyOf db, db, by decide, rfl, rfl⟩
  · exact ⟨keyOf relabelled, relabelled, by decide, rfl, rfl⟩
  · exact absurd hmatch (by decide)

/-- A pod that matched is deleted, and still counted. -/
theorem counted_after_delete :
    (exec (step selectNothing) (withPolicy latencyCritical) [.podAdd web {}, .podDelete web {}]).map
        (fun r => ((activePodCount r.1.resolver "latency-critical").toInt,
          runningMatching selectNothing r.1 r.2 "latency-critical")) = some (1, 0) := by
  decide

end K8sSched.Agent.ActivePods
