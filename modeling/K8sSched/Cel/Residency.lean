import K8sSched.Cel.SingleFlight

/-! # How often an expression is compiled

`inflight` is there so that concurrent callers of one expression share one
compilation. A goroutine finds the expression missing under the read lock and
looks for a call in flight under the write lock; in between another goroutine may
have compiled, inserted and left. The second section does not look at the entries
again, so the expression is compiled once more. As long as that does not happen,
it is compiled once for the time it stays in the cache. -/

namespace K8sSched.Cel.Residency

open K8sSched.Cel.Cache K8sSched.Cel.SingleFlight K8sSched.Lib.Runs

variable {ι P ε : Type} [DecidableEq ι] {compile : String → Except ε P} {capacity : Nat}
  {expr : String}

/-! ## Watching the calls -/

/-- What is seen of a run: `compile` is called, or a call returns. -/
inductive Mark
  | compiled (expr : String)
  | returned (expr : String)
  deriving DecidableEq

def Mark.ofEvent : Event ι P ε → Mark
  | .returned _ expr _ => .returned expr

/-- The call of `compile` in a step. -/
def compiledIn (s : State ι P ε) : Action ι P → List Mark
  | .compile g =>
    match s.pc g with
    | .compile expr _ => [.compiled expr]
    | _ => []
  | _ => []

def watched (compile : String → Except ε P) (capacity : Nat) (s : State ι P ε)
    (a : Action ι P) : Option (State ι P ε × List Mark) :=
  (step compile capacity s a).map fun r => (r.1, compiledIn s a ++ r.2.map Mark.ofEvent)

theorem watched_eq_some {s t : State ι P ε} {a : Action ι P} {ms : List Mark}
    (h : watched compile capacity s a = some (t, ms)) :
    ∃ es, step compile capacity s a = some (t, es) ∧
      ms = compiledIn s a ++ es.map Mark.ofEvent := by
  obtain ⟨⟨t', es⟩, hs, heq⟩ := Option.map_eq_some_iff.mp h
  cases heq
  exact ⟨es, hs, rfl⟩

/-- The number of times the expression has been compiled. -/
def compiles (expr : String) (log : List Mark) : Nat := log.count (.compiled expr)

/-- The expression has been compiled once at most, and once if a call of it has
returned. -/
structure CompiledOnce (expr : String) (x : State ι P ε × List Mark) : Prop where
  most : compiles expr x.2 ≤ 1
  once : .returned expr ∈ x.2 → compiles expr x.2 = 1

/-- The step does not evict the expression. -/
def Stays (compile : String → Except ε P) (capacity : Nat) (expr : String)
    (x : State ι P ε × List Mark) (a : Action ι P) : Prop :=
  ∀ t es, step compile capacity x.1 a = some (t, es) → expr ∈ x.1.entries → expr ∈ t.entries

/-- The expression is compiled only while it is not in the cache. -/
def Absent (expr : String) (x : State ι P ε × List Mark) : Action ι P → Prop
  | .compile g =>
    match x.1.pc g with
    | .compile e _ => e = expr → expr ∉ x.1.entries
    | _ => True
  | _ => True

/-! ## What is compiled is on its way into the cache -/

/-- The goroutine has compiled the expression and not inserted it yet. -/
def Carries (expr : String) : PC → Prop
  | .close e _ | .publish e _ => e = expr
  | _ => False

def Compiled (expr : String) (s : State ι P ε) : Prop :=
  expr ∈ s.entries ∨ ∃ g, Carries expr (s.pc g)

section Step

variable {s t : State ι P ε} {a : Action ι P} {g : ι} {q : PC} {es : List (Event ι P ε)}

theorem Carries.owner {pc : PC} (h : Carries expr pc) : ∃ call, owner pc = some (expr, call) := by
  cases pc with
  | close e call | publish e call =>
    cases h
    exact ⟨call, rfl⟩
  | _ => cases h

/-- The goroutine carries the expression before and after its step, or neither
before nor after. -/
theorem exists_carries_update {pc : ι → PC} {p : PC} (hpc : pc g = p)
    (h : Carries expr q ↔ Carries expr p) :
    (∃ g', Carries expr (Function.update pc g q g')) ↔ ∃ g', Carries expr (pc g') := by
  refine exists_congr fun g' => ?_
  by_cases hg : g' = g
  · rw [hg, Function.update_self, hpc, h]
  · rw [Function.update_of_ne hg]

/-- The expression gets compiled, and stays so, by being compiled. -/
theorem compiled_step (hI : Inv compile (s, [])) {prog : P} (hok : compile expr = .ok prog)
    (hstays : expr ∈ s.entries → expr ∈ t.entries) (hs : Does compile capacity s a t es) :
    Compiled expr t ↔ Compiled expr s ∨ .compiled expr ∈ compiledIn s a := by
  cases hs with
  | call hpc | miss hpc | join hpc | lead hpc | receive hpc =>
    simp only [compiledIn, List.not_mem_nil, or_false]
    exact or_congr Iff.rfl (exists_carries_update hpc Iff.rfl)
  | @hit g e entry hpc hentry =>
    simp only [compiledIn, List.not_mem_nil, or_false]
    refine or_congr ?_ (exists_carries_update hpc Iff.rfl)
    change expr ∈ s.entries.insert e _ ↔ _
    rw [Finmap.mem_insert, or_iff_right_iff_imp]
    rintro rfl
    exact Finmap.mem_iff.mpr ⟨entry, hentry⟩
  | @compile g e call hpc =>
    simp only [compiledIn, hpc, List.mem_singleton, Mark.compiled.injEq]
    by_cases he : expr = e
    · refine iff_of_true (.inr ⟨g, ?_⟩) (.inr he)
      rw [pc_goto, if_pos rfl]
      exact he.symm
    · simp only [he, or_false]
      exact or_congr Iff.rfl (exists_carries_update hpc (iff_of_false (Ne.symm he) id))
  | close hpc =>
    simp only [compiledIn, List.not_mem_nil, or_false]
    exact or_congr Iff.rfl (exists_carries_update hpc Iff.rfl)
  | @fail g e call order err hpc herr =>
    simp only [compiledIn, List.not_mem_nil, or_false]
    have hne : e ≠ expr := by
      rintro rfl
      rw [hI.done hpc, resultOf, hok] at herr
      cases herr
    exact or_congr Iff.rfl (exists_carries_update hpc (iff_of_false id hne))
  | @again g e call order entry hpc herr hentry =>
    simp only [compiledIn, List.not_mem_nil, or_false]
    have hmem : e ∈ s.entries := Finmap.mem_iff.mpr ⟨entry, hentry⟩
    by_cases he : e = expr
    · rw [he] at hmem
      exact iff_of_true (.inl (hstays hmem)) (.inl hmem)
    · refine or_congr ?_ (exists_carries_update hpc (iff_of_false id he))
      change expr ∈ s.entries.insert e _ ↔ _
      rw [Finmap.mem_insert, or_iff_right (Ne.symm he)]
  | @insert g e call order hpc herr hentry =>
    simp only [compiledIn, List.not_mem_nil, or_false]
    by_cases he : e = expr
    · refine iff_of_true (.inl ?_) (.inr ⟨g, by rw [hpc]; exact he⟩)
      change expr ∈ Finmap.insert e _ _
      rw [Finmap.mem_insert]
      exact .inl he.symm
    · refine or_congr ⟨fun h => ?_, hstays⟩ (exists_carries_update hpc (iff_of_false id he))
      change expr ∈ Finmap.insert e _ _ at h
      rw [Finmap.mem_insert, or_iff_right (Ne.symm he)] at h
      obtain ⟨entry, hentry⟩ := Finmap.mem_iff.mp h
      exact Finmap.mem_iff.mpr ⟨entry, evict_lookup hentry⟩

end Step

/-! ## The invariant -/

structure Inv (compile : String → Except ε P) (expr : String)
    (x : State ι P ε × List Mark) : Prop where
  flight : SingleFlight.Inv compile (x.1, [])
  count : 1 ≤ compiles expr x.2 ↔ Compiled expr x.1
  returned : .returned expr ∈ x.2 → Compiled expr x.1
  /-- A goroutine that can stop waiting for the expression. -/
  waiting : ∀ g call, x.1.pc g = .wait expr call → (x.1.calls call).closed → Compiled expr x.1

section Inv

variable {s t : State ι P ε} {log : List Mark} {a : Action ι P} {es : List (Event ι P ε)}

omit [DecidableEq ι] in
theorem newCache_residency : Inv compile expr ((newCache : State ι P ε), []) where
  flight := newCache_inv
  count := by
    refine iff_of_false (by simp [compiles]) ?_
    rintro (h | ⟨g, h⟩)
    · exact Finmap.notMem_empty h
    · cases h
  returned := fun h => by cases h
  waiting := fun _ _ h => by cases h

omit [DecidableEq ι] in
theorem Inv.compiledOnce_iff {x : State ι P ε × List Mark} (h : Inv compile expr x) :
    CompiledOnce expr x ↔ compiles expr x.2 ≤ 1 :=
  ⟨CompiledOnce.most, fun hmost =>
    ⟨hmost, fun hret => Nat.le_antisymm hmost (h.count.mpr (h.returned hret))⟩⟩

omit [DecidableEq ι] in
/-- A step compiles once at most. -/
theorem count_compiledIn (s : State ι P ε) (a : Action ι P) :
    (compiledIn s a).count (.compiled expr) = if .compiled expr ∈ compiledIn s a then 1 else 0 := by
  cases a with
  | compile g =>
    cases hpc : s.pc g with
    | compile e call =>
      by_cases he : expr = e
      · simp [compiledIn, hpc, he]
      · simp [compiledIn, hpc, he, Ne.symm he]
    | _ => simp [compiledIn, hpc]
  | _ => rfl

omit [DecidableEq ι] in
theorem compiles_append (s : State ι P ε) (log : List Mark) (a : Action ι P)
    (es : List (Event ι P ε)) :
    compiles expr (log ++ (compiledIn s a ++ es.map Mark.ofEvent)) =
      compiles expr log + if .compiled expr ∈ compiledIn s a then 1 else 0 := by
  have hnone : (es.map Mark.ofEvent).count (.compiled expr) = 0 := by
    rw [List.count_eq_zero]
    intro hmem
    obtain ⟨e, -, he⟩ := List.mem_map.mp hmem
    cases e
    cases he
  rw [compiles, List.count_append, List.count_append, hnone, Nat.add_zero, count_compiledIn]
  rfl

/-- A call returns what has been compiled. -/
theorem Inv.compiled_of_returned (h : Inv compile expr (s, log)) {prog : P}
    (hok : compile expr = .ok prog) (hstays : expr ∈ s.entries → expr ∈ t.entries)
    (hs : Does compile capacity s a t es) (hret : .returned expr ∈ es.map Mark.ofEvent) :
    Compiled expr t := by
  have hkeep : Compiled expr s → Compiled expr t := fun hc =>
    (compiled_step h.flight hok hstays hs).mpr (.inl hc)
  cases hs with
  | hit hpc hentry =>
    cases List.mem_singleton.mp hret
    exact hkeep (.inl (Finmap.mem_iff.mpr ⟨_, hentry⟩))
  | @receive g _ call hpc hclosed =>
    cases List.mem_singleton.mp hret
    exact hkeep (h.waiting g call hpc hclosed)
  | fail hpc herr =>
    cases List.mem_singleton.mp hret
    exact hkeep (.inr ⟨_, by rw [hpc]; rfl⟩)
  | again hpc herr hentry =>
    cases List.mem_singleton.mp hret
    exact hkeep (.inl (Finmap.mem_iff.mpr ⟨_, hentry⟩))
  | @insert g _ call order hpc =>
    cases List.mem_singleton.mp hret
    exact hkeep (.inr ⟨g, by rw [hpc]; rfl⟩)
  | _ => cases hret

omit [DecidableEq ι] in
/-- Only the owner of a call closes it, once it has compiled the expression. -/
theorem carries_of_closed (hI : SingleFlight.Inv compile (s, [])) {call : Nat}
    (hcall : s.inflight.lookup expr = some call) (hclosed : (s.calls call).closed) :
    ∃ g, Carries expr (s.pc g) := by
  obtain ⟨g, hown⟩ := (hI.flight.inflight expr call).mp hcall
  have hphase := hI.flight.phase g
  refine ⟨g, ?_⟩
  cases hpc : s.pc g with
  | idle | lookup | slow | wait => rw [hpc] at hown; cases hown
  | compile e c =>
    rw [hpc] at hown hphase
    cases hown
    rw [show (s.calls call).closed = false from hphase] at hclosed
    cases hclosed
  | close e c =>
    rw [hpc] at hown
    cases hown
    rfl
  | publish e c =>
    rw [hpc] at hown
    cases hown
    rfl

theorem closed_of_update {calls : Nat → CompileCall P ε} {id call : Nat} {c : CompileCall P ε}
    (h : (Function.update calls id c call).closed)
    (hc : call = id → c.closed → (calls call).closed) : (calls call).closed := by
  by_cases heq : call = id
  · rw [heq, Function.update_self] at h
    exact hc heq h
  · rwa [Function.update_of_ne heq] at h

/-- The call of a waiting goroutine gets closed by the one that has compiled the
expression. -/
theorem Inv.compiled_of_waiting (h : Inv compile expr (s, log)) {prog : P}
    (hok : compile expr = .ok prog) (hstays : expr ∈ s.entries → expr ∈ t.entries)
    (hs : Does compile capacity s a t es) {g : ι} {call : Nat}
    (hpc : t.pc g = .wait expr call) (hclosed : (t.calls call).closed) : Compiled expr t := by
  have hflight : Flight compile s := h.flight.flight
  have hkeep : Compiled expr s → Compiled expr t := fun hc =>
    (compiled_step h.flight hok hstays hs).mpr (.inl hc)
  -- a goroutine that does not move was waiting before
  have hstill : ∀ {g' : ι} {q : PC}, t.pc = Function.update s.pc g' q →
      (∀ e c, q ≠ .wait e c) → s.pc g = .wait expr call := by
    intro g' q ht hq
    rw [ht, Function.update_apply] at hpc
    split at hpc
    · exact absurd hpc (hq expr call)
    · exact hpc
  cases hs with
  | call | hit | miss | receive | fail | again | insert =>
    exact hkeep (h.waiting g call (hstill rfl (by simp)) hclosed)
  | @join g' e c hpc' hcall =>
    rw [pc_goto] at hpc
    split at hpc
    · cases hpc
      exact hkeep (.inr (carries_of_closed h.flight hcall hclosed))
    · exact hkeep (h.waiting g call hpc hclosed)
  | lead =>
    have hwait := hstill rfl (by simp)
    have hlt : call < s.next := hflight.callOf_lt (g := g) (by rw [hwait]; rfl)
    exact hkeep (h.waiting g call hwait (closed_of_update hclosed fun heq => absurd heq hlt.ne))
  | compile =>
    refine hkeep (h.waiting g call (hstill rfl (by simp))
      (closed_of_update hclosed fun heq hc => ?_))
    rwa [heq]
  | @close g' e c hpc' =>
    have hwait := hstill rfl (by simp)
    by_cases hc : call = c
    · -- the goroutine waits for the one that closes the call
      rw [hc] at hwait
      have hphase := hflight.phase g
      rw [hwait] at hphase
      have hopen := hflight.open_of_pending (g := g') (.inr hpc')
      rcases hphase.2 with hdone | ⟨g₂, hpending⟩
      · rw [hdone.1] at hopen
        cases hopen
      · have heq := hflight.unique g₂ g' expr e c (owner_of_pending hpending)
          (by rw [hpc']; rfl)
        rw [heq, hpc'] at hpending
        rcases hpending with hp | hp
        · cases hp
        · cases hp
          exact hkeep (.inr ⟨g', by rw [hpc']; rfl⟩)
    · exact hkeep (h.waiting g call hwait (closed_of_update hclosed fun heq => absurd heq hc))

theorem Inv.step (h : Inv compile expr (s, log)) {prog : P} (hok : compile expr = .ok prog)
    (hstays : expr ∈ s.entries → expr ∈ t.entries) (hs : Does compile capacity s a t es) :
    Inv compile expr (t, log ++ (compiledIn s a ++ es.map Mark.ofEvent)) := by
  have hnext := h.flight.step hs
  have hcompiled := compiled_step h.flight hok hstays hs
  refine ⟨⟨hnext.flight, hnext.entries, fun _ _ _ hmem => by cases hmem⟩, ?_, ?_, ?_⟩
  · rw [compiles_append, hcompiled, ← h.count]
    split
    · next hmem => exact iff_of_true (by omega) (.inr hmem)
    · next hmem => simp [hmem]
  · intro hmem
    rcases List.mem_append.mp hmem with hmem | hmem
    · exact hcompiled.mpr (.inl (h.returned hmem))
    · rcases List.mem_append.mp hmem with hmem | hmem
      · unfold compiledIn at hmem
        split at hmem
        · split at hmem
          · cases List.mem_singleton.mp hmem
          · cases hmem
        · cases hmem
      · exact h.compiled_of_returned hok hstays hs hmem
  · exact fun g call => h.compiled_of_waiting hok hstays hs

omit [DecidableEq ι] in
/-- The goroutine that compiles the expression is the only one that can carry it,
so it was compiled before only if it is in the cache. -/
theorem Inv.compiled_iff_mem (h : Inv compile expr (s, log)) {g : ι} {call : Nat}
    (hpc : s.pc g = .compile expr call) : Compiled expr s ↔ expr ∈ s.entries := by
  refine ⟨fun hc => hc.resolve_right ?_, .inl⟩
  rintro ⟨g', hcarries⟩
  obtain ⟨call', hown'⟩ := hcarries.owner
  have hown : owner (s.pc g) = some (expr, call) := by rw [hpc]; rfl
  have hcall := (h.flight.flight.inflight expr call).mpr ⟨g, hown⟩
  have hcall' := (h.flight.flight.inflight expr call').mpr ⟨g', hown'⟩
  rw [hcall] at hcall'
  cases hcall'
  rw [← h.flight.flight.unique g g' expr expr call hown hown', hpc] at hcarries
  cases hcarries

/-- From a state in which the expression has been compiled once at most. -/
theorem Inv.compiles_le_iff (h : Inv compile expr (s, log)) (hmost : compiles expr log ≤ 1)
    (hs : Does compile capacity s a t es) :
    compiles expr (log ++ (compiledIn s a ++ es.map Mark.ofEvent)) ≤ 1 ↔
      Absent expr (s, log) a := by
  rw [compiles_append]
  cases hs with
  | @compile g e call hpc =>
    simp only [compiledIn, Absent, hpc, List.mem_singleton, Mark.compiled.injEq]
    by_cases he : e = expr
    · rw [he] at hpc
      rw [← h.compiled_iff_mem hpc, ← h.count]
      simp only [he]
      simp
    · simp [he, Ne.symm he, hmost]
  | _ => exact iff_of_true hmost trivial

end Inv

/-- For any number of goroutines and any order of their steps, as long as the
expression is not evicted: it is compiled once exactly when no goroutine compiles
it while it is in the cache. -/
theorem compiled_once_iff (compile : String → Except ε P) (capacity : Nat) {expr : String}
    {prog : P} (hok : compile expr = .ok prog) {as : List (Action ι P)}
    (hstays : AllSteps (logged (watched compile capacity)) (Stays compile capacity expr)
      (newCache, []) as) :
    AllStates (logged (watched compile capacity)) (CompiledOnce expr) (newCache, []) as ↔
      AllSteps (logged (watched compile capacity)) (Absent expr) (newCache, []) as := by
  have hstart : Inv compile expr ((newCache : State ι P ε), []) := newCache_residency
  refine allStates_iff_allSteps_of ?_ ?_ hstart (hstart.compiledOnce_iff.mpr (Nat.zero_le _)) hstays
  · rintro ⟨s, log⟩ a ⟨t, log'⟩ ms hI hstays hs
    obtain ⟨hs, rfl⟩ := logged_eq_some hs
    obtain ⟨es, hs, rfl⟩ := watched_eq_some hs
    exact hI.step hok (hstays t es hs) (step_does hs)
  · rintro ⟨s, log⟩ a ⟨t, log'⟩ ms hI hP hstays hs
    obtain ⟨hs, rfl⟩ := logged_eq_some hs
    obtain ⟨es, hs, rfl⟩ := watched_eq_some hs
    rw [(hI.step hok (hstays t es hs) (step_does hs)).compiledOnce_iff]
    exact hI.compiles_le_iff hP.most (step_does hs)

/-! ## Two callers -/

theorem stays_of_not_mem {x : State ι P ε × List Mark} (h : expr ∉ x.1.entries)
    (a : Action ι P) : Stays compile capacity expr x a :=
  fun _ _ _ hmem => absurd hmem h

/-- Only an insertion evicts. -/
theorem stays_of_not_publish (x : State ι P ε × List Mark) {a : Action ι P}
    (ha : ∀ g order, a ≠ .publish g order) : Stays compile capacity expr x a := by
  intro t es hs hmem
  cases step_does hs with
  | hit =>
    change expr ∈ Finmap.insert _ _ _
    exact Finmap.mem_insert.mpr (.inr hmem)
  | fail | again | insert => exact absurd rfl (ha _ _)
  | _ => exact hmem

theorem allSteps_stays {x : State ι P ε × List Mark} {as : List (Action ι P)}
    (h : ∀ a ∈ as, ∀ g order, a ≠ .publish g order) :
    AllSteps (logged (watched compile capacity)) (Stays compile capacity expr) x as :=
  allSteps_of_forall x fun a ha y => stays_of_not_publish y (h a ha)

/-- Both callers have missed before the first one takes the write lock. -/
def bothMiss : List (Action Bool String) :=
  [.call true "a", .call false "a", .lookup true, .lookup false, .lock true]

/-- The second takes it while the first compiles. -/
noncomputable def sharing : List (Action Bool String) :=
  (bothMiss ++ [.lock false]) ++
    [.compile true, .close true, .receive false, .publish true (anyOrder String)]

/-- The second takes it after the first is done. -/
noncomputable def late : List (Action Bool String) :=
  (bothMiss ++ [.compile true, .close true]) ++
    [.publish true (anyOrder String), .lock false, .compile false]

theorem compiled_once_iff_sharing :
    AllStates (logged (watched verbatim 8)) (CompiledOnce "a") (newCache, []) sharing := by
  refine (compiled_once_iff verbatim 8 (rfl : verbatim "a" = .ok "a") ?_).mpr ?_
  · unfold sharing
    refine allSteps_append_of_eq (allSteps_stays (by simp [bothMiss])) rfl ?_
    refine ⟨stays_of_not_publish _ (by simp), stays_of_not_publish _ (by simp),
      stays_of_not_publish _ (by simp), ?_, trivial⟩
    exact stays_of_not_mem Finmap.notMem_empty _
  · unfold sharing
    refine allSteps_append_of_eq (allSteps_of_forall _ (by simp [bothMiss, Absent])) rfl ?_
    exact And.intro (fun _ => Finmap.notMem_empty) (allSteps_of_forall _ (by simp [Absent]))

/-- The second caller compiles the expression again although it is in the cache. -/
theorem compiled_twice :
    ∃ s log, exec (watched verbatim 8) newCache late = some (s, log) ∧ compiles "a" log = 2 ∧
      AllSteps (logged (watched verbatim 8)) (Stays verbatim 8 "a") (newCache, []) late := by
  refine ⟨_, _, rfl, rfl, ?_⟩
  unfold late
  refine allSteps_append_of_eq (allSteps_stays (by simp [bothMiss])) rfl ?_
  exact And.intro (stays_of_not_mem Finmap.notMem_empty _) (allSteps_stays (by simp))

end K8sSched.Cel.Residency
