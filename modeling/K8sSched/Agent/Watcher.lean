import K8sSched.Lib.Runs
import K8sSched.Agent.MapOps
import K8sSched.Agent.Policies

/-! # Notifications

The informer handlers of `internal/k8s/watcher.go` and
`internal/policy/resolver.go`, wired to the resolver and the maps as
`NewAgent` does it. One step handles one notification. The agent holds the
informer's store of pods, by namespace and name, from which an update takes the
old object; what a handler finds on the host comes with the notification. -/

namespace K8sSched.Agent.Watcher

open K8sSched.Bpf.Params K8sSched.Agent.Pods K8sSched.Agent.MapOps K8sSched.Agent.Policies
open K8sSched.Lib.GoMap K8sSched.Lib.Runs

variable {σ : Type}

/-- The cgroup IDs and PIDs found for a pod while its notification is handled,
the outcome of each `Put`, and the keys whose `Delete` fails. -/
structure Found where
  cgids : List (Put U64 String) := []
  pids : List (Put U32 String) := []
  failingCgids : List U64 := []
  failingPids : List U32 := []

abbrev PodKey := String × String

def keyOf (pod : Pod) : PodKey := (pod.ns, pod.name)

structure AgentState (σ : Type) where
  resolver : Resolver σ
  mapOps : Maps
  pods : Finmap fun _ : PodKey => Pod

/-- The calls of `UpdatePodParams`, with its parameters and result, and of
`RemovePodParams`. -/
inductive Event
  | updated (pod : Pod) (params : TaskParams) (err : Option String)
  | removed (pod : Pod)

inductive Notification (σ : Type)
  | addPolicy (policy : SchedulingPolicy σ)
  | removePolicy (name : String)
  | podAdd (pod : Pod) (found : Found)
  | podUpdate (pod : Pod) (found : Found)
  | podDelete (pod : Pod) (found : Found)

def Event.pod : Event → Pod
  | .updated pod _ _ => pod
  | .removed pod => pod

/-- The pod a notification is about. -/
def Notification.pod? : Notification σ → Option Pod
  | .addPolicy _ => none
  | .removePolicy _ => none
  | .podAdd pod _ => some pod
  | .podUpdate pod _ => some pod
  | .podDelete pod _ => some pod

/-! ## Handlers -/

def onPodUpdate (ev : Evaluators σ) (a : AgentState σ) (pod : Pod) (found : Found) :
    AgentState σ × List Event :=
  let resolved := resolve ev a.resolver pod
  let update := updatePodParams a.mapOps
    { pod := pod, resolved := some resolved.2, cgids := found.cgids, pids := found.pids }
  ({ a with resolver := resolved.1, mapOps := update.1 }, [.updated pod resolved.2 update.2])

/-- The resolver is not told. -/
def onPodDelete (a : AgentState σ) (pod : Pod) (found : Found) : AgentState σ × List Event :=
  let mapOps := removePodParams a.mapOps
    { pod := pod, cgids := found.cgids.map Put.key, pids := found.pids.map Put.key,
      failingCgids := found.failingCgids, failingPids := found.failingPids }
  ({ a with mapOps := mapOps }, [.removed pod])

def handlePodUpdate (ev : Evaluators σ) (a : AgentState σ) (pod : Pod) (found : Found) :
    AgentState σ × List Event :=
  match pod.phase with
  | .running => onPodUpdate ev a pod found
  | .succeeded | .failed => onPodDelete a pod found
  | .pending | .unknown => (a, [])

def containerIDs (pod : Pod) : List String :=
  pod.containerStatuses.map ContainerStatus.containerID

def podRelevantFieldsChanged (oldPod newPod : Pod) : Bool :=
  oldPod.phase ≠ newPod.phase || oldPod.labels ≠ newPod.labels ||
    oldPod.annotations ≠ newPod.annotations || containerIDs oldPod ≠ containerIDs newPod

/-- One notification. The informer delivers an add for a pod it does not hold,
an update or a delete for one it holds, and has changed its store by then. -/
def step (ev : Evaluators σ) (a : AgentState σ) :
    Notification σ → Option (AgentState σ × List Event)
  | .addPolicy policy => some ({ a with resolver := addPolicy a.resolver policy }, [])
  | .removePolicy name => some ({ a with resolver := removePolicy a.resolver name }, [])
  | .podAdd pod found =>
    match a.pods.lookup (keyOf pod) with
    | some _ => none
    | none => some (handlePodUpdate ev { a with pods := a.pods.insert (keyOf pod) pod } pod found)
  | .podUpdate pod found =>
    match a.pods.lookup (keyOf pod) with
    | none => none
    | some old =>
      let stored := { a with pods := a.pods.insert (keyOf pod) pod }
      if podRelevantFieldsChanged old pod then some (handlePodUpdate ev stored pod found)
      else some (stored, [])
  | .podDelete pod found =>
    match a.pods.lookup (keyOf pod) with
    | none => none
    | some _ => some (onPodDelete { a with pods := a.pods.erase (keyOf pod) } pod found)

/-! ## What one notification does -/

/-- The ways a notification changes the resolver and the store, and what it
calls. -/
inductive Does (ev : Evaluators σ) (a : AgentState σ) :
    Notification σ → AgentState σ → List Event → Prop
  | policy {n : Notification σ} {b : AgentState σ} (hn : n.pod? = none) (hb : b.pods = a.pods) :
      Does ev a n b []
  | resolved {n : Notification σ} {b : AgentState σ} {pod : Pod} (err : Option String)
      (hn : n.pod? = some pod) (hphase : pod.phase = .running)
      (hr : b.resolver = (resolve ev a.resolver pod).1)
      (hb : b.pods = a.pods.insert (keyOf pod) pod) :
      Does ev a n b [.updated pod (resolveParams ev a.resolver.policies pod) err]
  | stored {n : Notification σ} {b : AgentState σ} {pod : Pod} {es : List Event}
      (hn : n.pod? = some pod) (hr : b.resolver = a.resolver)
      (hb : b.pods = a.pods.insert (keyOf pod) pod) (hes : es = [] ∨ es = [.removed pod]) :
      Does ev a n b es
  | deleted {n : Notification σ} {b : AgentState σ} {pod : Pod}
      (hn : n.pod? = some pod) (hr : b.resolver = a.resolver)
      (hb : b.pods = a.pods.erase (keyOf pod)) : Does ev a n b [.removed pod]

theorem handle_does {ev : Evaluators σ} {a : AgentState σ} {n : Notification σ} {pod : Pod}
    (hn : n.pod? = some pod) (found : Found) :
    Does ev a n
      (handlePodUpdate ev { a with pods := a.pods.insert (keyOf pod) pod } pod found).1
      (handlePodUpdate ev { a with pods := a.pods.insert (keyOf pod) pod } pod found).2 := by
  cases hphase : pod.phase with
  | running =>
    simp only [handlePodUpdate, hphase]
    exact .resolved _ hn hphase rfl rfl
  | succeeded | failed =>
    simp only [handlePodUpdate, hphase]
    exact .stored hn rfl rfl (.inr rfl)
  | pending | unknown =>
    simp only [handlePodUpdate, hphase]
    exact .stored hn rfl rfl (.inl rfl)

theorem step_does {ev : Evaluators σ} {a b : AgentState σ} {n : Notification σ} {es : List Event}
    (h : step ev a n = some (b, es)) : Does ev a n b es := by
  cases n with
  | addPolicy policy | removePolicy name =>
    simp only [step, Option.some.injEq, Prod.mk.injEq] at h
    obtain ⟨rfl, rfl⟩ := h
    exact .policy rfl rfl
  | podAdd pod found =>
    simp only [step] at h
    split at h
    · cases h
    · have heq := Option.some.inj h
      have hd : Does ev a (.podAdd pod found) _ _ := handle_does rfl found
      rw [heq] at hd
      exact hd
  | podUpdate pod found =>
    simp only [step] at h
    split at h
    · cases h
    · split at h
      · have heq := Option.some.inj h
        have hd : Does ev a (.podUpdate pod found) _ _ := handle_does rfl found
        rw [heq] at hd
        exact hd
      · obtain ⟨rfl, rfl⟩ := Prod.mk.inj (Option.some.inj h)
        exact .stored rfl rfl rfl (.inl rfl)
  | podDelete pod found =>
    simp only [step] at h
    split at h
    · cases h
    · obtain ⟨rfl, rfl⟩ := Prod.mk.inj (Option.some.inj h)
      exact .deleted rfl rfl rfl

/-- Every call is about the pod of the notification. -/
theorem Does.event_pod {ev : Evaluators σ} {a b : AgentState σ} {n : Notification σ}
    {es : List Event} (h : Does ev a n b es) {e : Event} (he : e ∈ es) :
    n.pod? = some e.pod := by
  cases h with
  | policy => cases he
  | resolved err hn => rw [hn, List.mem_singleton.mp he]; rfl
  | stored hn _ _ hes =>
    rcases hes with rfl | rfl
    · cases he
    · rw [hn, List.mem_singleton.mp he]; rfl
  | deleted hn => rw [hn, List.mem_singleton.mp he]; rfl

/-! ## The last update of a pod -/

/-- The pod and the parameters of an update of the pod with this UID. -/
def Event.updateOf (uid : String) : Event → Option (Pod × TaskParams)
  | .updated pod params _ => if pod.uid = uid then some (pod, params) else none
  | .removed _ => none

/-- The last update of a pod in a trace. -/
def lastUpdate (tr : List Event) (uid : String) : Option (Pod × TaskParams) :=
  tr.reverse.findSome? (Event.updateOf uid)

theorem lastUpdate_append (tr es : List Event) (uid : String) :
    lastUpdate (tr ++ es) uid = (lastUpdate es uid).or (lastUpdate tr uid) := by
  simp [lastUpdate]

theorem updateOf_of_ne {e : Event} {uid : String} (h : e.pod.uid ≠ uid) :
    e.updateOf uid = none := by
  cases e with
  | updated pod params err => exact if_neg h
  | removed pod => rfl

theorem lastUpdate_of_other {es : List Event} {uid : String} (h : ∀ e ∈ es, e.pod.uid ≠ uid) :
    lastUpdate es uid = none := by
  rw [lastUpdate, List.findSome?_eq_none_iff]
  exact fun e he => updateOf_of_ne (h e (List.mem_reverse.mp he))

/-- While no notification is about a pod, it is not updated. -/
theorem run_other {ev : Evaluators σ} {a b : AgentState σ} {tr : List Event} {uid : String}
    (h : Run (step ev) (fun _ n => ∀ pod, n.pod? = some pod → pod.uid ≠ uid) a tr b) :
    ∀ e ∈ tr, e.pod.uid ≠ uid := by
  refine h.invariant (I := fun tr _ => ∀ e ∈ tr, e.pod.uid ≠ uid) (by simp) ?_
  intro tr a n b es ih hok hstep e he
  rcases List.mem_append.mp he with he | he
  · exact ih e he
  · exact hok e.pod ((step_does hstep).event_pod he)

/-! ## The policies a pod's parameters come from -/

theorem resolveParams_congr {ev : Evaluators σ} {policies policies' : PolicyMap σ} {pod : Pod}
    (h : getMatchingPolicies ev policies pod = getMatchingPolicies ev policies' pod) :
    resolveParams ev policies pod = resolveParams ev policies' pod := by
  simp only [resolveParams, h]

/-- The add of a running pod passes what the cached policies give. -/
theorem podAdd_update {ev : Evaluators σ} {a b : AgentState σ} {pod : Pod} {found : Found}
    {es : List Event} (hphase : pod.phase = .running)
    (h : step ev a (.podAdd pod found) = some (b, es)) :
    lastUpdate es pod.uid = some (pod, resolveParams ev a.resolver.policies pod) := by
  simp only [step, handlePodUpdate, hphase] at h
  split at h
  · cases h
  · obtain ⟨-, rfl⟩ := Prod.mk.inj (Option.some.inj h)
    simp [lastUpdate, Event.updateOf, resolve]

/-- However policy notifications and notifications of other pods fall before and
after the add of a running pod, the parameters last passed for it are those the
policies cached at its add give. They are those of the final policies when the
same policies match the pod then and at the end. -/
theorem passed_as_of_add (ev : Evaluators σ) (start : AgentState σ)
    (before after : List (Notification σ)) (pod : Pod) (found : Found)
    {a b : AgentState σ} {tr₁ tr : List Event} (hphase : pod.phase = .running)
    (hbefore : exec (step ev) start before = some (a, tr₁))
    (hall : exec (step ev) start (before ++ .podAdd pod found :: after) = some (b, tr))
    (hafter : ∀ n ∈ after, ∀ q, n.pod? = some q → q.uid ≠ pod.uid) :
    (lastUpdate tr pod.uid).map Prod.snd = some (resolveParams ev a.resolver.policies pod) ∧
      (getMatchingPolicies ev a.resolver.policies pod =
          getMatchingPolicies ev b.resolver.policies pod →
        (lastUpdate tr pod.uid).map Prod.snd =
          some (resolveParams ev b.resolver.policies pod)) := by
  rw [exec_append, hbefore, Option.bind_some, exec] at hall
  obtain ⟨⟨b', tr₂⟩, hrest, heq⟩ := Option.map_eq_some_iff.mp hall
  obtain ⟨rfl, rfl⟩ := Prod.mk.inj heq
  obtain ⟨⟨a', es⟩, hadd, hrest⟩ := Option.bind_eq_some_iff.mp hrest
  obtain ⟨⟨b'', tr₃⟩, hpost, heq⟩ := Option.map_eq_some_iff.mp hrest
  obtain ⟨rfl, rfl⟩ := Prod.mk.inj heq
  have hother := run_other (Run.of_exec (allSteps_of_forall a' fun n hn _ => hafter n hn) hpost)
  have hlast : lastUpdate (tr₁ ++ (es ++ tr₃)) pod.uid =
      some (pod, resolveParams ev a.resolver.policies pod) := by
    rw [lastUpdate_append, lastUpdate_append, lastUpdate_of_other hother, podAdd_update hphase hadd]
    rfl
  rw [hlast]
  exact ⟨rfl, fun hsame => congrArg some (resolveParams_congr hsame)⟩

/-- Every selector is invalid and every condition fails. -/
def selectNothing : Evaluators Unit := ⟨fun _ => none, fun _ _ _ => .error ""⟩

def freshAgent : AgentState σ := ⟨newResolver, opened true true, ∅⟩

def latencyCritical : SchedulingPolicy Unit := { name := "latency-critical", weight := 9000 }

/-- Selects no pod. -/
def batch : SchedulingPolicy Unit := { name := "batch", podSelector := some (), weight := 200 }

theorem passed_as_of_add_between :
    (exec (step selectNothing) freshAgent
        ([.addPolicy latencyCritical] ++ .podAdd web {} :: [.addPolicy batch])).map
      (fun r => (lastUpdate r.2 web.uid).map Prod.snd) = some (some ⟨9000, 0⟩) := by
  obtain ⟨⟨a, tr₁⟩, hbefore⟩ : ∃ r, exec (step selectNothing) freshAgent
      [.addPolicy latencyCritical] = some r := Option.isSome_iff_exists.mp (by decide)
  obtain ⟨⟨b, tr⟩, hall⟩ : ∃ r, exec (step selectNothing) freshAgent
      ([.addPolicy latencyCritical] ++ .podAdd web {} :: [.addPolicy batch]) = some r :=
    Option.isSome_iff_exists.mp (by decide)
  have hweight : (exec (step selectNothing) freshAgent [.addPolicy latencyCritical]).map
      (fun r => resolveParams selectNothing r.1.resolver.policies web) = some ⟨9000, 0⟩ := by decide
  have hpassed := passed_as_of_add selectNothing freshAgent [.addPolicy latencyCritical]
    [.addPolicy batch] web {} rfl hbefore hall (by simp [Notification.pod?])
  rw [hbefore] at hweight
  rw [hall, Option.map_some, hpassed.1]
  exact congrArg some hweight

/-- The same two notifications in the other order: the pod keeps the parameters
it got before the policy was known. -/
theorem passed_before_policy :
    (exec (step selectNothing) freshAgent [.podAdd web {}, .addPolicy latencyCritical]).map
        (fun r => ((lastUpdate r.2 web.uid).map Prod.snd,
          resolveParams selectNothing r.1.resolver.policies web)) =
      some (some ⟨1000, 0⟩, ⟨9000, 0⟩) := by
  decide

end K8sSched.Agent.Watcher
