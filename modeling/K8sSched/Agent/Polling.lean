import K8sSched.Agent.Policies

/-! # Polling instead of watching

Without the informer `pollPolicies` of `internal/policy/resolver.go` lists the
policies every ten seconds and `refreshPolicies` brings the cache in line. That
gives the cached policies the informer's notifications would have led to, in
whatever order they come. The sets of matched pods it does not touch: those of a
policy that is gone stay, where `removePolicy` deletes them. -/

namespace K8sSched.Agent.Polling

open K8sSched.Agent.Policies K8sSched.Lib.GoMap

variable {σ : Type}

/-- `none` when the list request fails. The first loop treats each item as
`addPolicy` does, the second deletes the policies that were not listed. -/
def refreshPolicies (r : Resolver σ) : Option (List (SchedulingPolicy σ)) → Resolver σ
  | none => r
  | some items =>
    let refreshed := items.foldl addPolicy r
    let seen := items.map SchedulingPolicy.name
    { refreshed with
      policies := rangeUpdate (fun key policy => if key ∈ seen then some policy else none)
        refreshed.policies
      keyed := by
        intro name policy h
        rw [lookup_rangeUpdate] at h
        obtain ⟨p, hp, hkeep⟩ := Option.bind_eq_some_iff.mp h
        split at hkeep
        · rw [← Option.some.inj hkeep]
          exact refreshed.keyed name p hp
        · cases hkeep }

/-- A notification of the informer. -/
inductive Delivery (σ : Type) where
  | add (policy : SchedulingPolicy σ)
  | remove (name : String)

def Delivery.name : Delivery σ → String
  | .add policy => policy.name
  | .remove name => name

def deliver (r : Resolver σ) : Delivery σ → Resolver σ
  | .add policy => addPolicy r policy
  | .remove name => removePolicy r name

/-- An addition for each listed policy and a removal for each cached one that is
not listed, each once. -/
structure Delivers (r : Resolver σ) (items : List (SchedulingPolicy σ))
    (deliveries : List (Delivery σ)) : Prop where
  once : deliveries.Nodup
  add : ∀ policy, .add policy ∈ deliveries ↔ policy ∈ items
  remove : ∀ name, .remove name ∈ deliveries ↔
    name ∈ r.policies ∧ name ∉ items.map SchedulingPolicy.name

/-! ## One name at a time -/

/-- What an addition makes of the cached policy. -/
def added (policy : SchedulingPolicy σ) (old : Option (SchedulingPolicy σ)) :
    Option (SchedulingPolicy σ) :=
  if (old.any fun old => old.resourceVersion == policy.resourceVersion) then old else some policy

/-- The policy and the matched pods under a name. -/
def entryOf (r : Resolver σ) (name : String) :
    Option (SchedulingPolicy σ) × Option (Finset String) :=
  (r.policies.lookup name, r.matchedPods.lookup name)

theorem resolver_ext {r r' : Resolver σ} (h : ∀ name, entryOf r name = entryOf r' name) :
    r = r' := by
  obtain ⟨policies, matched, _⟩ := r
  obtain ⟨policies', matched', _⟩ := r'
  have hp : policies = policies' := Finmap.ext_lookup fun name => congrArg Prod.fst (h name)
  have hm : matched = matched' := Finmap.ext_lookup fun name => congrArg Prod.snd (h name)
  subst hp hm
  rfl

/-- The effect of a notification on its own name. -/
def Delivery.effect : Delivery σ → Option (SchedulingPolicy σ) × Option (Finset String) →
    Option (SchedulingPolicy σ) × Option (Finset String)
  | .add policy, old => (added policy old.1, old.2)
  | .remove _, _ => (none, none)

theorem read_addPolicy_ne (r : Resolver σ) (policy : SchedulingPolicy σ) (name : String)
    (hn : name ≠ policy.name) : entryOf (addPolicy r policy) name = entryOf r name := by
  unfold addPolicy
  split
  · rfl
  · rw [entryOf, Finmap.lookup_insert_of_ne _ hn, entryOf]

theorem read_addPolicy (r : Resolver σ) (policy : SchedulingPolicy σ) :
    entryOf (addPolicy r policy) policy.name =
      (added policy (r.policies.lookup policy.name), r.matchedPods.lookup policy.name) := by
  unfold addPolicy added
  split
  · rfl
  · rw [entryOf, Finmap.lookup_insert]

theorem read_deliver_ne (r : Resolver σ) (d : Delivery σ) (name : String) (hn : name ≠ d.name) :
    entryOf (deliver r d) name = entryOf r name := by
  cases d with
  | add policy => exact read_addPolicy_ne r policy name hn
  | remove n =>
    exact Prod.ext (Finmap.lookup_erase_ne hn) (Finmap.lookup_erase_ne hn)

theorem read_deliver (r : Resolver σ) (d : Delivery σ) :
    entryOf (deliver r d) d.name = d.effect (entryOf r d.name) := by
  cases d with
  | add policy => exact read_addPolicy r policy
  | remove n => exact Prod.ext (Finmap.lookup_erase n _) (Finmap.lookup_erase n _)

/-! ## Both ways -/

section

variable {r : Resolver σ} {items : List (SchedulingPolicy σ)} {deliveries : List (Delivery σ)}

theorem Delivers.names_nodup (h : Delivers r items deliveries)
    (hnames : (items.map SchedulingPolicy.name).Nodup) :
    (deliveries.map Delivery.name).Nodup := by
  refine List.Nodup.map_on ?_ h.once
  intro d hd d' hd' heq
  cases d with
  | add p =>
    have hp := (h.add p).mp hd
    cases d' with
    | add p' => rw [List.inj_on_of_nodup_map hnames hp ((h.add p').mp hd') heq]
    | remove n =>
      exact absurd (List.mem_map.mpr ⟨p, hp, heq⟩) ((h.remove n).mp hd').2
  | remove n =>
    cases d' with
    | add p' =>
      have hp' := (h.add p').mp hd'
      exact absurd (List.mem_map.mpr ⟨p', hp', heq.symm⟩) ((h.remove n).mp hd).2
    | remove n' => exact congrArg _ heq

/-- After the notifications a listed policy is as `addPolicy` leaves it, and a
cached one that is not listed is gone with its matched pods. -/
theorem read_deliveries (h : Delivers r items deliveries)
    (hnames : (items.map SchedulingPolicy.name).Nodup) :
    (∀ policy ∈ items, entryOf (deliveries.foldl deliver r) policy.name =
      (added policy (r.policies.lookup policy.name), r.matchedPods.lookup policy.name)) ∧
    (∀ name ∈ r.policies, name ∉ items.map SchedulingPolicy.name →
      entryOf (deliveries.foldl deliver r) name = (none, none)) ∧
    ∀ name ∉ r.policies, name ∉ items.map SchedulingPolicy.name →
      entryOf (deliveries.foldl deliver r) name = entryOf r name := by
  have hread := fun d hd => read_foldl_of_mem Delivery.name entryOf Delivery.effect
    read_deliver_ne read_deliver (h.names_nodup hnames) (a := d) hd r
  refine ⟨?_, ?_, ?_⟩
  · intro policy hp
    exact hread (.add policy) ((h.add policy).mpr hp)
  · intro name hcached hlisted
    exact hread (.remove name) ((h.remove name).mpr ⟨hcached, hlisted⟩)
  · intro name hcached hlisted
    refine read_foldl_of_not_mem Delivery.name entryOf read_deliver_ne ?_ r
    intro hmem
    obtain ⟨d, hd, rfl⟩ := List.mem_map.mp hmem
    cases d with
    | add policy => exact hlisted (List.mem_map_of_mem ((h.add policy).mp hd))
    | remove n => exact hcached ((h.remove n).mp hd).1

theorem read_refresh (hnames : (items.map SchedulingPolicy.name).Nodup) :
    (∀ policy ∈ items, entryOf (refreshPolicies r (some items)) policy.name =
      (added policy (r.policies.lookup policy.name), r.matchedPods.lookup policy.name)) ∧
    ∀ name ∉ items.map SchedulingPolicy.name,
      entryOf (refreshPolicies r (some items)) name = (none, r.matchedPods.lookup name) := by
  have hrange : ∀ name, entryOf (refreshPolicies r (some items)) name =
      ((entryOf (items.foldl addPolicy r) name).1.bind fun policy =>
          if name ∈ items.map SchedulingPolicy.name then some policy else none,
        (entryOf (items.foldl addPolicy r) name).2) :=
    fun name => Prod.ext (lookup_rangeUpdate _ _ name) rfl
  constructor
  · intro policy hp
    have hread := read_foldl_of_mem SchedulingPolicy.name entryOf
      (fun policy old => (added policy old.1, old.2)) read_addPolicy_ne read_addPolicy hnames hp r
    rw [hrange, hread]
    simp [List.mem_map_of_mem hp, entryOf]
  · intro name hname
    have hread := read_foldl_of_not_mem SchedulingPolicy.name entryOf read_addPolicy_ne hname r
    rw [hrange, hread]
    simp [hname, entryOf]

end

/-- Polling leads to the state the notifications lead to, in whatever order they
come, exactly when no cached policy that is not listed any more has matched pods
recorded. -/
theorem polling_agrees_iff (r : Resolver σ) {items : List (SchedulingPolicy σ)}
    (hnames : (items.map SchedulingPolicy.name).Nodup) {deliveries : List (Delivery σ)}
    (hdeliveries : Delivers r items deliveries) :
    refreshPolicies r (some items) = deliveries.foldl deliver r ↔
      ∀ name ∈ r.policies, name ∉ items.map SchedulingPolicy.name → name ∉ r.matchedPods := by
  obtain ⟨hlisted, hgone, hother⟩ := read_deliveries hdeliveries hnames
  obtain ⟨hlisted', hunlisted⟩ := read_refresh (r := r) hnames
  constructor
  · intro heq name hcached hname
    have hread := hunlisted name hname
    rw [heq, hgone name hcached hname] at hread
    exact Finmap.lookup_eq_none.mp (congrArg Prod.snd hread).symm
  · intro h
    refine resolver_ext fun name => ?_
    by_cases hname : name ∈ items.map SchedulingPolicy.name
    · obtain ⟨policy, hp, rfl⟩ := List.mem_map.mp hname
      rw [hlisted policy hp, hlisted' policy hp]
    · rw [hunlisted name hname]
      by_cases hcached : name ∈ r.policies
      · rw [hgone name hcached hname, Finmap.lookup_eq_none.mpr (h name hcached hname)]
      · rw [hother name hcached hname, entryOf, Finmap.lookup_eq_none.mpr hcached]

/-- Two policies, one of them with pods that matched it. -/
def twoPolicies : Resolver Unit :=
  { addPolicy (addPolicy newResolver { name := "batch" }) { name := "web" } with
    matchedPods := Finmap.singleton "web" {"u1", "u2"} }

/-- One of them was changed, the other deleted, and a third created. -/
theorem polling_agrees_iff_unmatched :
    refreshPolicies twoPolicies
        (some [{ name := "web", resourceVersion := "2" }, { name := "ml" }]) =
      [Delivery.add { name := "ml" }, .remove "batch",
        .add { name := "web", resourceVersion := "2" }].foldl deliver twoPolicies := by
  have hcached : ∀ name, name ∈ twoPolicies.policies ↔ name = "web" ∨ name = "batch" := by
    intro name
    change name ∈ Finmap.insert "web" _ (Finmap.insert "batch" _ ∅) ↔ _
    simp [Finmap.mem_insert, Finmap.notMem_empty]
  refine (polling_agrees_iff twoPolicies (by decide) ⟨by simp, ?_, ?_⟩).mpr ?_
  · intro policy
    simp [or_comm]
  · intro name
    rw [hcached]
    by_cases hname : name = "batch"
    · simp [hname]
    · by_cases hweb : name = "web"
      · simp [hweb]
      · simp [hname, hweb]
  · intro name hname hlisted
    rcases (hcached name).mp hname with rfl | rfl
    · exact absurd hlisted (by decide)
    · decide

/-- One policy, with a pod that matched it. -/
def onePolicy (matched : Finmap fun _ : String => Finset String) : Resolver Unit where
  policies := (addPolicy newResolver { name := "batch" }).policies
  matchedPods := matched
  keyed := (addPolicy newResolver { name := "batch" }).keyed

theorem delivers_removal (matched : Finmap fun _ : String => Finset String) :
    Delivers (onePolicy matched) [] [.remove "batch"] where
  once := by simp
  add := by simp
  remove := by
    intro name
    change _ ↔ name ∈ Finmap.insert "batch" _ ∅ ∧ _
    rw [Finmap.mem_insert]
    simp [Finmap.notMem_empty]

/-- The policy is deleted while a pod matches it: after a poll the pod is still
counted. -/
theorem polled_away :
    Delivers (onePolicy (Finmap.singleton "batch" {"u1"})) [] [.remove "batch"] ∧
      activePodCount (refreshPolicies (onePolicy (Finmap.singleton "batch" {"u1"})) (some []))
        "batch" = 1 ∧
      activePodCount (deliver (onePolicy (Finmap.singleton "batch" {"u1"})) (.remove "batch"))
        "batch" = 0 :=
  ⟨delivers_removal _, by decide, by decide⟩

end K8sSched.Agent.Polling
