import K8sSched.Agent.MatchTracking
import K8sSched.Cel.CallsReturn
import K8sSched.Cel.Evaluate
import K8sSched.Lib.RwLock

/-! # The resolver's lock

`getMatchingPolicies` ranges over the cached policies under the read lock and
evaluates their conditions through the CEL cache, where it may wait for another
goroutine's compilation; `trackMatchedPods`, `addPolicy` and `removePolicy` take
the write lock, `PolicyNames` and `ActivePodCount` the read lock. Here every one
of these is taken apart into the steps on the lock, the turns of the loop and
the steps inside the CEL cache. -/

namespace K8sSched.Agent.ResolverLock
open K8sSched.Agent.Pods K8sSched.Agent.Policies K8sSched.Agent.MatchTracking
open K8sSched.Cel.Evaluate K8sSched.Cel.CallsReturn
open K8sSched.Lib.RwLock K8sSched.Lib.Runs K8sSched.Lib.FairRounds

variable {ι P ε σ : Type} [DecidableEq ι]

/-! ## Conditions through the cache -/

/-- Label selectors, the CEL compiler, the evaluation of its programs, and the
texts of its errors. -/
structure Engines (P ε σ : Type) where
  selector : σ → Option (StringMap → Bool)
  compile : String → Except ε P
  eval : P → Signal × Context → Except ε Value
  describe : EvalError ε → String

/-- Without the cache. -/
def Engines.evaluators (e : Engines P ε σ) : Evaluators σ where
  selector := e.selector
  cel expr sig ctx :=
    match evaluate e.compile e.eval expr (sig, ctx) with
    | .ok passes => .ok passes
    | .error err => .error (e.describe err)

/-- The rest of `celConditionPasses` once `getOrCompile` has returned. -/
def Engines.passes (e : Engines P ε σ) (policy : SchedulingPolicy σ) (pod : Pod) :
    Cel.Cache.Result P ε → Bool
  | (some prog, none) =>
    match runProgram e.eval prog (signalOf pod, contextOf policy) with
    | .ok passes => passes
    | .error _ => false
  | _ => false

theorem passes_resultOf (e : Engines P ε σ) {policy : SchedulingPolicy σ} (pod : Pod)
    (hcond : policy.celCondition ≠ "") :
    e.passes policy pod (Cel.Cache.resultOf e.compile policy.celCondition) =
      celConditionPasses e.evaluators policy pod := by
  rw [celConditionPasses, if_neg hcond]
  simp only [Engines.evaluators, evaluate, Cel.Cache.resultOf]
  cases e.compile policy.celCondition with
  | error err => rfl
  | ok prog =>
    simp only [Engines.passes]
    cases runProgram e.eval prog (signalOf pod, contextOf policy) <;> rfl

/-! ## Goroutines -/

/-- What is done under the write lock. -/
inductive Job (σ : Type)
  | track (pod : Pod) (names : Multiset String)
  | add (policy : SchedulingPolicy σ)
  | remove (name : String)

def Job.apply (r : Resolver σ) : Job σ → Resolver σ
  | .track pod names => trackMatchedPods r names pod.uid
  | .add policy => addPolicy r policy
  | .remove name => removePolicy r name

def Job.events : Job σ → List MatchTracking.Event
  | .remove name => [.removed name]
  | _ => []

/-- `trackMatchedPods` returns at once for a pod without a UID. -/
def Job.skips : Job σ → Bool
  | .track pod _ => pod.uid = ""
  | _ => false

/-- Where a goroutine is: outside, before `RLock` in `getMatchingPolicies` for a
pod or in one of the queries, in the loop with the policies it has visited and
those that matched, in `getOrCompile` for the condition of a policy, before
the end of a query, before `Lock`, waiting for the readers, before the body of
the section, and before `Unlock`. -/
inductive Pc (σ : Type)
  | idle
  | rLock (pod : Option Pod)
  | matching (pod : Pod) (visited matched : List (SchedulingPolicy σ))
  | evaluating (pod : Pod) (policy : SchedulingPolicy σ)
      (visited matched : List (SchedulingPolicy σ))
  | querying
  | lock (job : Job σ)
  | wait (job : Job σ)
  | write (job : Job σ)
  | unlock

def Pc.mode : Pc σ → Mode
  | .matching _ _ _ | .evaluating _ _ _ _ | .querying => .reads
  | .wait _ => .waits
  | .write _ | .unlock => .writes
  | _ => .outside

structure Node (ι P ε σ : Type) where
  mu : RwMutex ι
  resolver : Resolver σ
  celCache : Cel.Cache.State ι P ε
  pc : ι → Pc σ

def Node.goto (s : Node ι P ε σ) (g : ι) (pc : Pc σ) : Node ι P ε σ :=
  { s with pc := Function.update s.pc g pc }

inductive Action (ι P σ : Type)
  | resolve (g : ι) (pod : Pod)
  | query (g : ι)
  | change (g : ι) (policy : SchedulingPolicy σ ⊕ String)
  | rLock (g : ι)
  | next (g : ι) (name : String)
  | cel (a : Cel.Cache.Action ι P)
  | rUnlock (g : ι)
  | skip (g : ι)
  | announce (g : ι)
  | lock (g : ι)
  | write (g : ι)
  | unlock (g : ι)

/-- The actions that start a call. -/
def Action.starts : Action ι P σ → Bool
  | .resolve _ _ | .query _ | .change _ _ => true
  | _ => false

def celCapacity : Nat := 256

/-- The loop over the policies ends when it has visited all of them. -/
def exhausted (policies : PolicyMap σ) (visited : List (SchedulingPolicy σ)) : Prop :=
  policies.keys ⊆ (visited.map SchedulingPolicy.name).toFinset

instance (policies : PolicyMap σ) (visited : List (SchedulingPolicy σ)) :
    Decidable (exhausted policies visited) := inferInstanceAs (Decidable (policies.keys ⊆ _))

/-- A turn of the loop: the selector, then the condition if there is one. -/
def visit (e : Engines P ε σ) (s : Node ι P ε σ) (g : ι) (pod : Pod)
    (visited matched : List (SchedulingPolicy σ)) (policy : SchedulingPolicy σ) :
    Option (Node ι P ε σ) :=
  if !podSelectorMatches e.evaluators policy pod then
    some (s.goto g (.matching pod (visited ++ [policy]) matched))
  else if policy.celCondition = "" then
    some (s.goto g (.matching pod (visited ++ [policy]) (matched ++ [policy])))
  else
    (Cel.Cache.step e.compile celCapacity s.celCache (.call g policy.celCondition)).map fun r =>
      { s with celCache := r.1 }.goto g (.evaluating pod policy visited matched)

/-- `getOrCompile` has returned to the loop. -/
def resume (e : Engines P ε σ) (s : Node ι P ε σ) :
    Cel.Cache.Event ι P ε → Option (Node ι P ε σ)
  | .returned g _ r =>
    match s.pc g with
    | .evaluating pod policy visited matched =>
      some (s.goto g (.matching pod (visited ++ [policy])
        (if e.passes policy pod r then matched ++ [policy] else matched)))
    | _ => none

def step (e : Engines P ε σ) (s : Node ι P ε σ) :
    Action ι P σ → Option (Node ι P ε σ × List MatchTracking.Event)
  | .resolve g pod =>
    match s.pc g with
    | .idle => some (s.goto g (.rLock (some pod)), [])
    | _ => none
  | .query g =>
    match s.pc g with
    | .idle => some (s.goto g (.rLock none), [])
    | _ => none
  | .change g policy =>
    match s.pc g, policy with
    | .idle, .inl policy => some (s.goto g (.lock (.add policy)), [])
    | .idle, .inr name => some (s.goto g (.lock (.remove name)), [])
    | _, _ => none
  | .rLock g =>
    match s.pc g with
    | .rLock (some pod) =>
      (s.mu.rLock g).map fun mu => ({ s with mu := mu }.goto g (.matching pod [] []), [])
    | .rLock none => (s.mu.rLock g).map fun mu => ({ s with mu := mu }.goto g .querying, [])
    | _ => none
  | .next g name =>
    match s.pc g, s.resolver.policies.lookup name with
    | .matching pod visited matched, some policy =>
      if name ∈ visited.map SchedulingPolicy.name then none
      else (visit e s g pod visited matched policy).map fun s => (s, [])
    | _, _ => none
  | .cel a =>
    if (actor a).isNone then none
    else
      match Cel.Cache.step e.compile celCapacity s.celCache a with
      | none => none
      | some (celCache, []) => some ({ s with celCache := celCache }, [])
      | some (celCache, event :: _) =>
        (resume e { s with celCache := celCache } event).map fun s => (s, [])
  | .rUnlock g =>
    match s.pc g with
    | .matching pod visited matched =>
      if exhausted s.resolver.policies visited then
        let names : Multiset String := matched.map SchedulingPolicy.name
        some ({ s with mu := s.mu.rUnlock g }.goto g (.lock (.track pod names)),
          [.matched pod.uid names])
      else none
    | .querying => some ({ s with mu := s.mu.rUnlock g }.goto g .idle, [])
    | _ => none
  | .skip g =>
    match s.pc g with
    | .lock job => if job.skips then some (s.goto g .idle, []) else none
    | _ => none
  | .announce g =>
    match s.pc g with
    | .lock job =>
      if job.skips then none
      else (s.mu.announce g).map fun mu => ({ s with mu := mu }.goto g (.wait job), [])
    | _ => none
  | .lock g =>
    match s.pc g with
    | .wait job => (s.mu.lock g).map fun mu => ({ s with mu := mu }.goto g (.write job), [])
    | _ => none
  | .write g =>
    match s.pc g with
    | .write job =>
      some ({ s with resolver := job.apply s.resolver }.goto g .unlock, job.events)
    | _ => none
  | .unlock g =>
    match s.pc g with
    | .unlock => some ({ s with mu := s.mu.unlock }.goto g .idle, [])
    | _ => none

def start (r : Resolver σ) : Node ι P ε σ := ⟨.free, r, Cel.Cache.newCache, fun _ => .idle⟩

/-! ## Critical sections as single steps -/

/-- What a goroutine holds between the two sections of `Resolve`. -/
def Pc.call : Pc σ → Option Call
  | .lock (.track pod names) | .wait (.track pod names) | .write (.track pod names) =>
    some ⟨names, pod.uid⟩
  | _ => none

/-- The resolver and the calls between their sections. -/
def Node.sections (s : Node ι P ε σ) : Resolving σ ι := ⟨s.resolver, fun g => (s.pc g).call⟩

/-- The loop so far: each policy visited once and as it is cached, and of these
the ones that match. -/
structure LoopOk (e : Engines P ε σ) (policies : PolicyMap σ) (pod : Pod)
    (visited matched : List (SchedulingPolicy σ)) : Prop where
  once : (visited.map SchedulingPolicy.name).Nodup
  cached : ∀ policy ∈ visited, policies.lookup policy.name = some policy
  matched : matched = visited.filter fun policy => selects e.evaluators policy pod

def InLoop (e : Engines P ε σ) (policies : PolicyMap σ) : Pc σ → Prop
  | .matching pod visited matched => LoopOk e policies pod visited matched
  | .evaluating pod policy visited matched =>
    LoopOk e policies pod visited matched ∧ policies.lookup policy.name = some policy ∧
      policy.name ∉ visited.map SchedulingPolicy.name ∧ policy.celCondition ≠ "" ∧
      podSelectorMatches e.evaluators policy pod = true
  | _ => True

/-- Inside the CEL cache, for the condition of the policy in question, are those
goroutines that evaluate one. -/
def InCache (cel : Cel.Cache.PC) : Pc σ → Prop
  | .evaluating _ policy _ _ => exprOf cel = some policy.celCondition
  | _ => cel = .idle

structure Inv (e : Engines P ε σ) (r : Resolver σ) (tr : List MatchTracking.Event)
    (s : Node ι P ε σ) : Prop where
  mutex : Agrees s.mu fun g => (s.pc g).mode
  flight : ∃ log, Cel.SingleFlight.Inv e.compile (s.celCache, log)
  inCache : ∀ g, InCache (s.celCache.pc g) (s.pc g)
  inLoop : ∀ g, InLoop e s.resolver.policies (s.pc g)
  atomic : Run (MatchTracking.step e.evaluators) (fun _ _ => True) ⟨r, fun _ => none⟩ tr s.sections

section Goto

variable {s : Node ι P ε σ} {g : ι} {q : Pc σ}

theorem goto_pc_self : (s.goto g q).pc g = q := Function.update_self ..

theorem goto_pc_of_ne {g' : ι} (hne : g' ≠ g) : (s.goto g q).pc g' = s.pc g' :=
  Function.update_of_ne hne ..

theorem mode_goto : (fun g' => ((s.goto g q).pc g').mode) =
    Function.update (fun g' => (s.pc g').mode) g q.mode := by
  funext g'
  by_cases hne : g' = g
  · rw [hne, goto_pc_self, Function.update_self]
  · rw [goto_pc_of_ne hne, Function.update_of_ne hne]

theorem sections_goto : (s.goto g q).sections =
    ⟨s.resolver, Function.update (fun g' => (s.pc g').call) g q.call⟩ := by
  refine congrArg (Resolving.mk s.resolver) (funext fun g' => ?_)
  by_cases hne : g' = g
  · rw [hne, goto_pc_self, Function.update_self]
  · rw [goto_pc_of_ne hne, Function.update_of_ne hne]

theorem sections_goto_same (hcall : q.call = (s.pc g).call) :
    (s.goto g q).sections = s.sections := by
  rw [sections_goto, hcall, Function.update_eq_self_iff.mpr rfl]
  rfl

end Goto

section Loop

variable {e : Engines P ε σ} {policies : PolicyMap σ} {pod : Pod}
  {visited matched : List (SchedulingPolicy σ)} {policy : SchedulingPolicy σ}

theorem LoopOk.visit (h : LoopOk e policies pod visited matched)
    (hcached : policies.lookup policy.name = some policy)
    (hnew : policy.name ∉ visited.map SchedulingPolicy.name) {passes : Bool}
    (hpasses : selects e.evaluators policy pod = passes) :
    LoopOk e policies pod (visited ++ [policy])
      (if passes then matched ++ [policy] else matched) where
  once := by
    rw [List.map_append]
    refine List.nodup_append.mpr ⟨h.once, List.nodup_singleton _, ?_⟩
    intro name hname other hother heq
    rw [List.mem_singleton.mp hother] at heq
    exact hnew (heq ▸ hname)
  cached := by
    intro p hp
    rcases List.mem_append.mp hp with hp | hp
    · exact h.cached p hp
    · rw [List.mem_singleton.mp hp]
      exact hcached
  matched := by
    rw [List.filter_append, ← h.matched]
    cases passes with
    | true => simp [hpasses]
    | false => simp [hpasses]

/-- After the loop, the policies that matched are those `getMatchingPolicies`
returns. -/
theorem LoopOk.done (h : LoopOk e policies pod visited matched)
    (hkeyed : ∀ name p, policies.lookup name = some p → p.name = name)
    (hall : exhausted policies visited) :
    (matched : Multiset (SchedulingPolicy σ)) =
      getMatchingPolicies e.evaluators policies pod := by
  have hnodup : (policies.entries.map Sigma.snd).Nodup := by
    refine Multiset.Nodup.map_on ?_ policies.nodupKeys.nodup
    intro x hx y hy heq
    obtain ⟨nx, px⟩ := x
    obtain ⟨ny, py⟩ := y
    have hnx := hkeyed nx px (Finmap.mem_lookup_iff.mpr hx)
    have hny := hkeyed ny py (Finmap.mem_lookup_iff.mpr hy)
    cases heq
    rw [← hnx, ← hny]
  have hvisited : (visited : Multiset (SchedulingPolicy σ)) = policies.entries.map Sigma.snd := by
    refine (Multiset.Nodup.ext (Multiset.coe_nodup.mpr (List.Nodup.of_map _ h.once)) hnodup).mpr ?_
    intro p
    rw [Multiset.mem_coe, Multiset.mem_map]
    constructor
    · intro hp
      exact ⟨⟨p.name, p⟩, Finmap.mem_lookup_iff.mp (h.cached p hp), rfl⟩
    · intro hp
      obtain ⟨⟨name, p'⟩, hmem, rfl⟩ := hp
      have hlookup : policies.lookup name = some p' := Finmap.mem_lookup_iff.mpr hmem
      have hname := hkeyed name p' hlookup
      have hseen := hall (Finmap.mem_keys.mpr (Finmap.mem_of_lookup_eq_some hlookup))
      obtain ⟨p, hp, hpname⟩ := List.mem_map.mp (List.mem_toFinset.mp hseen)
      have hsame := h.cached p hp
      rw [hpname, hlookup] at hsame
      cases hsame
      exact hp
  rw [getMatchingPolicies, ← hvisited, h.matched, Multiset.filter_coe]
  simp only [Bool.decide_eq_true]

end Loop

section Steps

variable {e : Engines P ε σ} {r : Resolver σ} {tr : List MatchTracking.Event}
  {s : Node ι P ε σ} {g : ι} {q : Pc σ}

theorem forall_goto {motive : ι → Pc σ → Prop} (hself : motive g q)
    (hother : ∀ g' ≠ g, motive g' (s.pc g')) : ∀ g', motive g' ((s.goto g q).pc g') := by
  intro g'
  by_cases hne : g' = g
  · subst hne
    rw [goto_pc_self]
    exact hself
  · rw [goto_pc_of_ne hne]
    exact hother g' hne

/-- A step on the lock. -/
theorem Inv.moveLock (h : Inv e r tr s) {mu : RwMutex ι}
    (hmu : Agrees mu (Function.update (fun g' => (s.pc g').mode) g q.mode))
    (hcel : InCache (s.celCache.pc g) q) (hloop : InLoop e s.resolver.policies q)
    (hcall : q.call = (s.pc g).call) : Inv e r tr ({ s with mu := mu }.goto g q) where
  mutex := by
    rw [← mode_goto] at hmu
    exact hmu
  flight := h.flight
  inCache := forall_goto (s := s) (motive := fun g' pc => InCache (s.celCache.pc g') pc) hcel
    fun g' _ => h.inCache g'
  inLoop := forall_goto (s := s) (motive := fun _ pc => InLoop e s.resolver.policies pc) hloop
    fun g' _ => h.inLoop g'
  atomic := by
    have hsame : ({ s with mu := mu }.goto g q).sections = s.sections :=
      sections_goto_same (s := { s with mu := mu }) hcall
    rw [hsame]
    exact h.atomic

/-- A step that leaves the lock alone. -/
theorem Inv.move (h : Inv e r tr s) (hmode : q.mode = (s.pc g).mode)
    (hcel : InCache (s.celCache.pc g) q) (hloop : InLoop e s.resolver.policies q)
    (hcall : q.call = (s.pc g).call) : Inv e r tr (s.goto g q) := by
  have hmu : Agrees s.mu (Function.update (fun g' => (s.pc g').mode) g q.mode) := by
    rw [Function.update_eq_self_iff.mpr hmode]
    exact h.mutex
  exact h.moveLock hmu hcel hloop hcall

theorem Inv.rUnlock (h : Inv e r tr s) {pod : Pod} {visited matched : List (SchedulingPolicy σ)}
    (hpc : s.pc g = .matching pod visited matched) (hall : exhausted s.resolver.policies visited) :
    Inv e r (tr ++ [.matched pod.uid (matched.map SchedulingPolicy.name : Multiset String)])
      ({ s with mu := s.mu.rUnlock g }.goto g
        (.lock (.track pod (matched.map SchedulingPolicy.name : Multiset String)))) where
  mutex := by
    rw [mode_goto]
    exact h.mutex.rUnlock (by rw [hpc]; rfl)
  flight := h.flight
  inCache := by
    have hidle := h.inCache g
    rw [hpc] at hidle
    exact forall_goto (s := s) (motive := fun g' pc => InCache (s.celCache.pc g') pc) hidle
      fun g' _ => h.inCache g'
  inLoop := forall_goto (s := s) (motive := fun _ pc => InLoop e s.resolver.policies pc) trivial
    fun g' _ => h.inLoop g'
  atomic := by
    have hloop := h.inLoop g
    rw [hpc] at hloop
    have hnames : (matched.map SchedulingPolicy.name : Multiset String) =
        (getMatchingPolicies e.evaluators s.resolver.policies pod).map SchedulingPolicy.name := by
      rw [← hloop.done s.resolver.keyed hall]
      rfl
    refine h.atomic.tail (a := .getMatchingPolicies g pod) trivial ?_
    have hcall : s.sections.calls g = none := by
      show (s.pc g).call = none
      rw [hpc]
      rfl
    simp only [MatchTracking.step, hcall]
    rw [sections_goto, hnames]
    rfl

/-- A goroutine at its write lock changes the policies only when no other is in
its loop. -/
theorem Inv.write (h : Inv e r tr s) {job : Job σ} (hpc : s.pc g = .write job) :
    Inv e r (tr ++ job.events) ({ s with resolver := job.apply s.resolver }.goto g .unlock) where
  mutex := by
    have hmode := h.mutex
    rw [← Function.update_eq_self_iff (f := fun g' => (s.pc g').mode).mpr
      (show (Pc.unlock : Pc σ).mode = (s.pc g).mode by rw [hpc]; rfl), ← mode_goto] at hmode
    exact hmode
  flight := h.flight
  inCache := by
    have hidle := h.inCache g
    rw [hpc] at hidle
    exact forall_goto (s := s) (motive := fun g' pc => InCache (s.celCache.pc g') pc) hidle
      fun g' _ => h.inCache g'
  inLoop := by
    have hreads : ∀ g', (s.pc g').mode ≠ .reads := fun g' hreads =>
      h.mutex.not_writes (j := g) hreads (by rw [hpc]; rfl)
    refine forall_goto (s := s)
      (motive := fun _ pc => InLoop e (job.apply s.resolver).policies pc) trivial fun g' _ => ?_
    have hg' := hreads g'
    cases hpc' : s.pc g' with
    | matching pod visited matched | evaluating pod policy visited matched =>
      rw [hpc'] at hg'
      exact absurd rfl hg'
    | _ => trivial
  atomic := by
    rw [sections_goto]
    cases job with
    | track pod names =>
      have hcall : s.sections.calls g = some ⟨names, pod.uid⟩ := by
        show (s.pc g).call = _
        rw [hpc]
        rfl
      refine h.atomic.tail (a := .trackMatchedPods g) trivial ?_
      simp only [MatchTracking.step, hcall]
      rfl
    | add policy =>
      refine h.atomic.tail (a := .addPolicy policy) trivial ?_
      simp only [MatchTracking.step]
      rw [Function.update_eq_self_iff.mpr (by rw [hpc]; rfl)]
      rfl
    | remove name =>
      refine h.atomic.tail (a := .removePolicy name) trivial ?_
      simp only [MatchTracking.step]
      rw [Function.update_eq_self_iff.mpr (by rw [hpc]; rfl)]
      rfl

theorem Inv.skip (h : Inv e r tr s) {job : Job σ} (hpc : s.pc g = .lock job)
    (hskips : job.skips = true) : Inv e r tr (s.goto g .idle) where
  mutex := by
    rw [mode_goto, Function.update_eq_self_iff.mpr (by rw [hpc]; rfl)]
    exact h.mutex
  flight := h.flight
  inCache := by
    have hidle := h.inCache g
    rw [hpc] at hidle
    exact forall_goto (motive := fun g' pc => InCache (s.celCache.pc g') pc) hidle
      fun g' _ => h.inCache g'
  inLoop := forall_goto (motive := fun _ pc => InLoop e s.resolver.policies pc) trivial
    fun g' _ => h.inLoop g'
  atomic := by
    cases job with
    | add policy | remove name => cases hskips
    | track pod names =>
      have huid : pod.uid = "" := of_decide_eq_true hskips
      have hcall : s.sections.calls g = some ⟨names, pod.uid⟩ := by
        show (s.pc g).call = _
        rw [hpc]
        rfl
      have hstep : MatchTracking.step e.evaluators s.sections (.trackMatchedPods g) =
          some ((s.goto g .idle).sections, []) := by
        simp only [MatchTracking.step, hcall]
        rw [sections_goto, trackMatchedPods, if_pos huid]
        rfl
      simpa using h.atomic.tail trivial hstep

/-! ### Inside the CEL cache -/

/-- A step inside the cache is one goroutine's, which stays in its call or
returns from it. -/
theorem does_expr {capacity : Nat} {c c' : Cel.Cache.State ι P ε} {a : Cel.Cache.Action ι P}
    {es : List (Cel.Cache.Event ι P ε)} (hd : Cel.Cache.Does e.compile capacity c a c' es)
    (hact : actor a = some g) :
    (∀ g' ≠ g, c'.pc g' = c.pc g') ∧ ∃ expr, exprOf (c.pc g) = some expr ∧
      (es = [] ∧ exprOf (c'.pc g) = some expr ∨
        ∃ result, es = [.returned g expr result] ∧ c'.pc g = .idle) := by
  cases hd with
  | call => cases hact
  | miss hpc | join hpc | lead hpc | compile hpc | close hpc =>
    cases hact
    refine ⟨fun g' hne => Function.update_of_ne hne .., _, by rw [hpc]; rfl, .inl ⟨rfl, ?_⟩⟩
    rw [Cel.SingleFlight.pc_goto_self]
    rfl
  | hit hpc | receive hpc | fail hpc | again hpc | insert hpc =>
    cases hact
    exact ⟨fun g' hne => Function.update_of_ne hne .., _, by rw [hpc]; rfl,
      .inr ⟨_, rfl, Function.update_self ..⟩⟩

theorem InCache.evaluating {cel : Cel.Cache.PC} {pc : Pc σ} (h : InCache cel pc) {expr : String}
    (hexpr : exprOf cel = some expr) : ∃ pod policy visited matched,
      pc = .evaluating pod policy visited matched ∧ policy.celCondition = expr := by
  cases pc with
  | evaluating pod policy visited matched =>
    exact ⟨pod, policy, visited, matched, rfl, Option.some.inj (Eq.trans (Eq.symm h) hexpr)⟩
  | _ =>
    have hidle : cel = .idle := h
    rw [hidle] at hexpr
    cases hexpr

/-- The condition has been evaluated: the loop goes on. -/
theorem Inv.resume (h : Inv e r tr s) {pod : Pod} {policy : SchedulingPolicy σ}
    {visited matched : List (SchedulingPolicy σ)}
    (hpc : s.pc g = .evaluating pod policy visited matched)
    {celCache : Cel.Cache.State ι P ε} {log : List (Cel.Cache.Event ι P ε)}
    (hflight : Cel.SingleFlight.Inv e.compile (celCache, log))
    (hother : ∀ g' ≠ g, celCache.pc g' = s.celCache.pc g') (hidle : celCache.pc g = .idle) :
    Inv e r tr ({ s with celCache := celCache }.goto g (.matching pod (visited ++ [policy])
      (if e.passes policy pod (Cel.Cache.resultOf e.compile policy.celCondition) then
        matched ++ [policy] else matched))) where
  mutex := by
    rw [mode_goto, Function.update_eq_self_iff.mpr (by rw [hpc]; rfl)]
    exact h.mutex
  flight := ⟨log, hflight⟩
  inCache := by
    refine forall_goto (s := s) (motive := fun g' pc => InCache (celCache.pc g') pc) hidle ?_
    intro g' hne
    rw [hother g' hne]
    exact h.inCache g'
  inLoop := by
    refine forall_goto (s := s) (motive := fun _ pc => InLoop e s.resolver.policies pc) ?_
      fun g' _ => h.inLoop g'
    have hloop := h.inLoop g
    rw [hpc] at hloop
    obtain ⟨hloop, hcached, hnew, hcond, hsel⟩ := hloop
    refine hloop.visit hcached hnew ?_
    rw [selects, hsel, passes_resultOf e pod hcond, Bool.true_and]
  atomic := by
    have hsame := sections_goto_same (s := { s with celCache := celCache }) (g := g)
      (q := .matching pod (visited ++ [policy])
        (if e.passes policy pod (Cel.Cache.resultOf e.compile policy.celCondition) then
          matched ++ [policy] else matched)) (by rw [hpc]; rfl)
    rw [hsame]
    exact h.atomic

theorem Inv.cel (h : Inv e r tr s) {a : Cel.Cache.Action ι P}
    {celCache : Cel.Cache.State ι P ε} {es : List (Cel.Cache.Event ι P ε)}
    (hd : Cel.Cache.Does e.compile celCapacity s.celCache a celCache es)
    (hact : actor a = some g) :
    es = [] ∧ Inv e r tr { s with celCache := celCache } ∨
      ∃ event t, es = [event] ∧
        ResolverLock.resume e { s with celCache := celCache } event = some t ∧ Inv e r tr t := by
  obtain ⟨log, hflight⟩ := h.flight
  have hflight' := hflight.step hd
  obtain ⟨hother, expr, hexpr, hself⟩ := does_expr hd hact
  obtain ⟨pod, policy, visited, matched, hpc, rfl⟩ := (h.inCache g).evaluating hexpr
  rcases hself with ⟨rfl, hexpr'⟩ | ⟨result, rfl, hidle⟩
  · refine .inl ⟨rfl, h.mutex, ⟨_, hflight'⟩, fun g' => ?_, h.inLoop, h.atomic⟩
    show InCache (celCache.pc g') (s.pc g')
    by_cases hne : g' = g
    · rw [hne, hpc]
      exact hexpr'
    · rw [hother g' hne]
      exact h.inCache g'
  · have hresult := hflight'.results g policy.celCondition result (by simp)
    refine .inr ⟨_, _, rfl, ?_, h.resume hpc hflight' hother hidle⟩
    simp only [ResolverLock.resume, hpc, hresult]

/-- A turn of the loop. -/
theorem Inv.visit (h : Inv e r tr s) {pod : Pod} {visited matched : List (SchedulingPolicy σ)}
    (hpc : s.pc g = .matching pod visited matched) {policy : SchedulingPolicy σ}
    (hcached : s.resolver.policies.lookup policy.name = some policy)
    (hnew : policy.name ∉ visited.map SchedulingPolicy.name) {t : Node ι P ε σ}
    (ht : ResolverLock.visit e s g pod visited matched policy = some t) : Inv e r tr t := by
  have hloop : LoopOk e s.resolver.policies pod visited matched := by
    have hg := h.inLoop g
    rw [hpc] at hg
    exact hg
  have hidle : s.celCache.pc g = .idle := by
    have hg := h.inCache g
    rw [hpc] at hg
    exact hg
  unfold ResolverLock.visit at ht
  split at ht
  · next hsel =>
    cases ht
    have hnot : selects e.evaluators policy pod = false := by simp_all [selects]
    have hvisit := hloop.visit hcached hnew hnot
    exact h.move (by rw [hpc]; rfl) hidle hvisit (by rw [hpc]; rfl)
  · next hsel =>
    split at ht
    · next hcond =>
      cases ht
      have hyes : selects e.evaluators policy pod = true := by
        simp_all [selects, celConditionPasses]
      have hvisit := hloop.visit hcached hnew hyes
      exact h.move (by rw [hpc]; rfl) hidle hvisit (by rw [hpc]; rfl)
    · next hcond =>
      obtain ⟨⟨celCache, es⟩, hcel, rfl⟩ := Option.map_eq_some_iff.mp ht
      obtain ⟨log, hflight⟩ := h.flight
      have hflight' := hflight.step (Cel.Cache.step_does hcel)
      have hcalled : celCache = s.celCache.goto g (.lookup policy.celCondition) := by
        simp only [Cel.Cache.step, hidle] at hcel
        cases hcel
        rfl
      refine ⟨?_, ⟨_, hflight'⟩, ?_, ?_, ?_⟩
      · rw [mode_goto, Function.update_eq_self_iff.mpr (by rw [hpc]; rfl)]
        exact h.mutex
      · refine forall_goto (s := s) (motive := fun g' pc => InCache (celCache.pc g') pc) ?_ ?_
        · show exprOf (celCache.pc g) = some policy.celCondition
          rw [hcalled, Cel.SingleFlight.pc_goto_self]
          rfl
        · intro g' hne
          rw [hcalled, show (s.celCache.goto g _).pc g' = s.celCache.pc g' from
            Function.update_of_ne hne ..]
          exact h.inCache g'
      · refine forall_goto (s := s) (motive := fun _ pc => InLoop e s.resolver.policies pc) ?_
          fun g' _ => h.inLoop g'
        exact ⟨hloop, hcached, hnew, hcond, by simpa using hsel⟩
      · have hsame := sections_goto_same (s := { s with celCache := celCache }) (g := g)
          (q := .evaluating pod policy visited matched) (by rw [hpc]; rfl)
        rw [hsame]
        exact h.atomic

theorem Inv.step (h : Inv e r tr s) {a : Action ι P σ} {t : Node ι P ε σ}
    {es : List MatchTracking.Event} (hs : ResolverLock.step e s a = some (t, es)) :
    Inv e r (tr ++ es) t := by
  have hidle : ∀ {g : ι}, (∀ pod policy visited matched,
      s.pc g ≠ .evaluating pod policy visited matched) → s.celCache.pc g = .idle := by
    intro g hne
    have hg := h.inCache g
    cases hpc : s.pc g with
    | evaluating pod policy visited matched => exact absurd hpc (hne pod policy visited matched)
    | _ =>
      rw [hpc] at hg
      exact hg
  have hnil : ∀ {t : Node ι P ε σ}, Inv e r tr t → Inv e r (tr ++ []) t := fun ht => by
    rw [List.append_nil]
    exact ht
  cases a with
  | resolve g pod | query g =>
    simp only [ResolverLock.step] at hs
    split at hs
    · next hpc =>
      cases hs
      exact hnil (h.move (by rw [hpc]; rfl) (hidle (by simp [hpc])) trivial (by rw [hpc]; rfl))
    · cases hs
  | change g policy =>
    simp only [ResolverLock.step] at hs
    split at hs
    · next hpc =>
      cases hs
      exact hnil (h.move (by rw [hpc]; rfl) (hidle (by simp [hpc])) trivial (by rw [hpc]; rfl))
    · next hpc =>
      cases hs
      exact hnil (h.move (by rw [hpc]; rfl) (hidle (by simp [hpc])) trivial (by rw [hpc]; rfl))
    · cases hs
  | rLock g =>
    simp only [ResolverLock.step] at hs
    split at hs
    · next pod hpc =>
      obtain ⟨mu, hmu, heq⟩ := Option.map_eq_some_iff.mp hs
      cases heq
      exact hnil (h.moveLock (h.mutex.rLock hmu) (hidle (by simp [hpc]))
        ⟨List.nodup_nil, by simp, rfl⟩ (by rw [hpc]; rfl))
    · next hpc =>
      obtain ⟨mu, hmu, heq⟩ := Option.map_eq_some_iff.mp hs
      cases heq
      exact hnil (h.moveLock (h.mutex.rLock hmu) (hidle (by simp [hpc])) trivial
        (by rw [hpc]; rfl))
    · cases hs
  | next g name =>
    simp only [ResolverLock.step] at hs
    split at hs
    · next pod visited matched policy hpc hlookup =>
      split at hs
      · cases hs
      · next hnew =>
        obtain ⟨t', ht', heq⟩ := Option.map_eq_some_iff.mp hs
        cases heq
        have hname := s.resolver.keyed name policy hlookup
        subst hname
        exact hnil (h.visit hpc hlookup hnew ht')
    · cases hs
  | cel a =>
    simp only [ResolverLock.step] at hs
    split at hs
    · cases hs
    · next hact =>
      obtain ⟨g, hg⟩ : ∃ g, actor a = some g :=
        Option.ne_none_iff_exists'.mp fun hnone => hact (by rw [hnone]; rfl)
      split at hs
      · cases hs
      · next celCache hcel =>
        cases hs
        rcases h.cel (Cel.Cache.step_does hcel) hg with ⟨-, ht⟩ | ⟨event, t', hes, -⟩
        · exact hnil ht
        · cases hes
      · next celCache event rest hcel =>
        obtain ⟨t', ht', heq⟩ := Option.map_eq_some_iff.mp hs
        cases heq
        rcases h.cel (Cel.Cache.step_does hcel) hg with ⟨hes, -⟩ | ⟨event', t'', hes, hres, ht⟩
        · cases hes
        · cases hes
          rw [ht'] at hres
          cases hres
          exact hnil ht
  | rUnlock g =>
    simp only [ResolverLock.step] at hs
    split at hs
    · next pod visited matched hpc =>
      split at hs
      · next hall =>
        cases hs
        exact h.rUnlock hpc hall
      · cases hs
    · next hpc =>
      cases hs
      exact hnil (h.moveLock (h.mutex.rUnlock (by rw [hpc]; rfl)) (hidle (by simp [hpc])) trivial
        (by rw [hpc]; rfl))
    · cases hs
  | skip g =>
    simp only [ResolverLock.step] at hs
    split at hs
    · next job hpc =>
      split at hs
      · next hskips =>
        cases hs
        exact hnil (h.skip hpc hskips)
      · cases hs
    · cases hs
  | announce g =>
    simp only [ResolverLock.step] at hs
    split at hs
    · next job hpc =>
      split at hs
      · cases hs
      · obtain ⟨mu, hmu, heq⟩ := Option.map_eq_some_iff.mp hs
        cases heq
        exact hnil (h.moveLock (h.mutex.announce (by rw [hpc]; rfl) hmu) (hidle (by simp [hpc]))
          trivial (by rw [hpc]; cases job <;> rfl))
    · cases hs
  | lock g =>
    simp only [ResolverLock.step] at hs
    split at hs
    · next job hpc =>
      obtain ⟨mu, hmu, heq⟩ := Option.map_eq_some_iff.mp hs
      cases heq
      exact hnil (h.moveLock (h.mutex.lock hmu) (hidle (by simp [hpc])) trivial
        (by rw [hpc]; cases job <;> rfl))
    · cases hs
  | write g =>
    simp only [ResolverLock.step] at hs
    split at hs
    · next job hpc =>
      cases hs
      exact h.write hpc
    · cases hs
  | unlock g =>
    simp only [ResolverLock.step] at hs
    split at hs
    · next hpc =>
      cases hs
      exact hnil (h.moveLock (h.mutex.unlock (by rw [hpc]; rfl)) (hidle (by simp [hpc])) trivial
        (by rw [hpc]; rfl))
    · cases hs

end Steps

theorem start_inv (e : Engines P ε σ) (r : Resolver σ) :
    Inv e r [] (start r : Node ι P ε σ) where
  mutex := free_agrees fun _ => rfl
  flight := ⟨[], Cel.SingleFlight.newCache_inv⟩
  inCache := fun _ => rfl
  inLoop := fun _ => trivial
  atomic := .refl

theorem run_inv {e : Engines P ε σ} {r : Resolver σ} {tr : List MatchTracking.Event}
    {s : Node ι P ε σ} (h : Run (step e) (fun _ _ => True) (start r) tr s) : Inv e r tr s :=
  h.invariant (I := Inv e r) (start_inv e r) fun _ _ _ _ _ ih _ hs => ih.step hs

/-- However the goroutines interleave on the lock, in their loops and inside the
CEL cache, the resolver goes through a run in which every critical section is
one step and conditions are evaluated without the cache. -/
theorem sections_atomic {e : Engines P ε σ} {r : Resolver σ} {tr : List MatchTracking.Event}
    {s : Node ι P ε σ} (h : Run (step e) (fun _ _ => True) (start r) tr s) :
    Run (MatchTracking.step e.evaluators) (fun _ _ => True) ⟨r, fun _ => none⟩ tr s.sections :=
  (run_inv h).atomic

/-- Every expression compiles and holds. -/
def engines : Engines String String Unit where
  selector _ := none
  compile expr := .ok expr
  eval _ _ := .ok (.bool true)
  describe _ := ""

/-- One policy with a condition. -/
def conditional : Resolver Unit := addPolicy newResolver { batch with celCondition := "c" }

/-- Two goroutines resolve a pod; the second waits for the first to compile the
condition while a third waits to remove the policy. -/
def contended : List (Action (Fin 3) String Unit) :=
  [.resolve 0 job, .resolve 1 job, .rLock 0, .rLock 1, .next 0 "batch", .next 1 "batch",
    .cel (.lookup 0), .cel (.lookup 1), .cel (.lock 0), .cel (.lock 1),
    .change 2 (.inr "batch"), .announce 2]

theorem sections_atomic_contended :
    ∃ (s : Node (Fin 3) String String Unit) (tr : List MatchTracking.Event),
      Run (MatchTracking.step engines.evaluators) (fun _ _ => True)
        ⟨conditional, fun _ => none⟩ tr s.sections ∧ .matched "u1" {"batch"} ∈ tr := by
  have h : Run (step engines) (fun _ _ => True) (start conditional) _ _ :=
    Run.of_isSome (contended ++ [.cel (.compile 0), .cel (.close 0), .cel (.receive 1), .rUnlock 1])
      (allSteps_of_forall _ fun _ _ _ => trivial) (by decide)
  exact ⟨_, _, sections_atomic h, by decide⟩

/-! ## No deadlock -/

section Progress

variable {e : Engines P ε σ} {r : Resolver σ} {tr : List MatchTracking.Event}
  {s : Node ι P ε σ} {g : ι}

/-- Some goroutine can go on with its call. -/
def Goes (e : Engines P ε σ) (s : Node ι P ε σ) : Prop :=
  ∃ a : Action ι P σ, a.starts = false ∧ (step e s a).isSome

/-- A goroutine inside the CEL cache, or the one it waits for there, can take a
step. -/
theorem goes_of_evaluating (h : Inv e r tr s) {expr : String}
    (hexpr : exprOf (s.celCache.pc g) = some expr) : Goes e s := by
  obtain ⟨log, hflight⟩ := h.flight
  obtain ⟨n, i, hahead⟩ := exists_ahead hflight.flight hexpr
  have henabled : Enabled (Cel.Cache.step e.compile celCapacity) actor s.celCache i :=
    hahead.enabled (Cel.SingleFlight.anyOrder P)
  obtain ⟨a, hact, hsome⟩ := henabled
  obtain ⟨⟨celCache, es⟩, hcel⟩ := Option.isSome_iff_exists.mp hsome
  refine ⟨.cel a, rfl, ?_⟩
  simp only [step, hact, Option.isNone_some, Bool.false_eq_true, if_false, hcel]
  rcases h.cel (Cel.Cache.step_does hcel) hact with ⟨rfl, -⟩ | ⟨event, t, rfl, hres, -⟩
  · rfl
  · simp [hres]

/-- A goroutine in its loop has a policy to visit or is at the end. -/
theorem goes_of_matching (h : Inv e r tr s) {pod : Pod}
    {visited matched : List (SchedulingPolicy σ)} (hpc : s.pc g = .matching pod visited matched) :
    Goes e s := by
  by_cases hall : exhausted s.resolver.policies visited
  · exact ⟨.rUnlock g, rfl, by simp [step, hpc, hall]⟩
  · obtain ⟨name, hname, hnew⟩ := Finset.not_subset.mp hall
    obtain ⟨policy, hlookup⟩ := Finmap.mem_iff.mp (Finmap.mem_keys.mp hname)
    have hidle := h.inCache g
    rw [hpc] at hidle
    have hcel : s.celCache.pc g = .idle := hidle
    refine ⟨.next g name, rfl, ?_⟩
    rw [List.mem_toFinset] at hnew
    simp only [step, hpc, hlookup, hnew, if_false, Option.isSome_map]
    unfold visit
    split
    · rfl
    · split
      · rfl
      · simp [Cel.Cache.step, hcel]

theorem goes_of_reads (h : Inv e r tr s) (hg : (s.pc g).mode = .reads) : Goes e s := by
  cases hpc : s.pc g with
  | matching pod visited matched => exact goes_of_matching h hpc
  | evaluating pod policy visited matched =>
    have hcel := h.inCache g
    rw [hpc] at hcel
    exact goes_of_evaluating h hcel
  | querying => exact ⟨.rUnlock g, rfl, by simp [step, hpc]⟩
  | _ => simp [hpc, Pc.mode] at hg

theorem goes_of_writes (hg : (s.pc g).mode = .writes) : Goes e s := by
  cases hpc : s.pc g with
  | write job => exact ⟨.write g, rfl, by simp [step, hpc]⟩
  | unlock => exact ⟨.unlock g, rfl, by simp [step, hpc]⟩
  | _ => simp [hpc, Pc.mode] at hg

end Progress

/-- A goroutine that waits inside the CEL cache holds the read lock meanwhile,
and so does the one it waits for: in every reachable state in which some call has
not returned, a goroutine can go on with its call. -/
theorem never_deadlocked {e : Engines P ε σ} {r : Resolver σ} {tr : List MatchTracking.Event}
    {s : Node ι P ε σ} (h : Run (step e) (fun _ _ => True) (start r) tr s) {g : ι}
    (hg : s.pc g ≠ .idle) : ∃ a : Action ι P σ, a.starts = false ∧ (step e s a).isSome := by
  have hinv := run_inv h
  by_cases hreads : ∃ g', (s.pc g').mode = .reads
  · obtain ⟨g', hg'⟩ := hreads
    exact goes_of_reads hinv hg'
  by_cases hwrites : ∃ g', (s.pc g').mode = .writes
  · obtain ⟨g', hg'⟩ := hwrites
    exact goes_of_writes hg'
  have havailable := hinv.mutex.available (fun j hj => hreads ⟨j, hj⟩)
    fun j hj => hwrites ⟨j, hj⟩
  rcases havailable with ⟨j, hj, hlock⟩ | hopen
  · cases hpc : s.pc j with
    | wait job => exact ⟨.lock j, rfl, by simp [step, hpc, hlock]⟩
    | _ => simp [hpc, Pc.mode] at hj
  · cases hpc : s.pc g with
    | idle => exact absurd hpc hg
    | rLock pod => exact ⟨.rLock g, rfl, by cases pod <;> simp [step, hpc, (hopen g).2.1]⟩
    | lock job =>
      by_cases hskips : job.skips = true
      · exact ⟨.skip g, rfl, by simp [step, hpc, hskips]⟩
      · exact ⟨.announce g, rfl, by simp [step, hpc, hskips, (hopen g).2.2]⟩
    | wait job =>
      have houtside := (hopen g).1
      rw [hpc] at houtside
      cases houtside
    | matching pod visited matched | evaluating pod policy visited matched | querying =>
      exact absurd ⟨g, by rw [hpc]; rfl⟩ hreads
    | write job | unlock => exact absurd ⟨g, by rw [hpc]; rfl⟩ hwrites

theorem never_deadlocked_contended :
    ∃ (s : Node (Fin 3) String String Unit) (tr : List MatchTracking.Event),
      exec (step engines) (start conditional) contended = some (s, tr) ∧
      s.celCache.pc 1 = .wait "c" 0 ∧ s.mu.pending = some 2 ∧
      ∃ a : Action (Fin 3) String Unit, a.starts = false ∧ (step engines s a).isSome := by
  have h : Run (step engines) (fun _ _ => True) (start conditional) _ _ :=
    Run.of_isSome contended (allSteps_of_forall _ fun _ _ _ => trivial) (by decide)
  have hwaits : ((exec (step engines) (start conditional) contended).get (by decide)).1.pc 2 =
      .wait (.remove "batch") := rfl
  exact ⟨_, _, rfl, by decide, by decide,
    never_deadlocked h (g := 2) fun hidle => by cases hwaits.symm.trans hidle⟩

end K8sSched.Agent.ResolverLock
