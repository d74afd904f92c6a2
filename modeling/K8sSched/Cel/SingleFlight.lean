import K8sSched.Lib.Runs
import K8sSched.Cel.Cache

/-! # The cache under concurrency

For any number of goroutines and any order of their steps: one compilation of an
expression at a time, results that belong to their expressions, no failed
compilation in the cache, no goroutine that waits in vain. The size of the cache
rests on its clocks: as long as an insertion into a full cache finds an entry
whose clock is not `2 ^ 64 - 1`, there is never more in it than its capacity. -/

namespace K8sSched.Cel.SingleFlight

open K8sSched.Bpf.Params (U64)
open K8sSched.Cel.Cache K8sSched.Lib.Runs
open K8sSched.Lib.GoMap (lookup_insert_eq_some)

variable {ι P ε : Type} [DecidableEq ι] {compile : String → Except ε P} {capacity : Nat}

/-! ## Calls and their owners -/

/-- The expression and the call a goroutine compiles for. -/
def owner : PC → Option (String × Nat)
  | .compile expr call | .close expr call | .publish expr call => some (expr, call)
  | _ => none

/-- The call's channel is closed over the result for the expression. -/
def Done (compile : String → Except ε P) (s : State ι P ε) (expr : String) (call : Nat) : Prop :=
  (s.calls call).closed ∧ (s.calls call).result = resultOf compile expr

/-- The goroutine has not closed the call's channel yet. -/
def Pending (expr : String) (call : Nat) (pc : PC) : Prop :=
  pc = .compile expr call ∨ pc = .close expr call

def PhaseOk (compile : String → Except ε P) (s : State ι P ε) : PC → Prop
  | .wait expr call => call < s.next ∧
      (Done compile s expr call ∨ ∃ g, Pending expr call (s.pc g))
  | .compile _ call => (s.calls call).closed = false
  | .close expr call => (s.calls call).closed = false ∧
      (s.calls call).result = resultOf compile expr
  | .publish expr call => Done compile s expr call
  | _ => True

/-- The calls in flight are those that goroutines own, one each. -/
structure Flight (compile : String → Except ε P) (s : State ι P ε) : Prop where
  inflight : ∀ expr call, s.inflight.lookup expr = some call ↔
    ∃ g, owner (s.pc g) = some (expr, call)
  unique : ∀ g g' expr expr' call, owner (s.pc g) = some (expr, call) →
    owner (s.pc g') = some (expr', call) → g = g'
  allocated : ∀ g expr call, owner (s.pc g) = some (expr, call) → call < s.next
  phase : ∀ g, PhaseOk compile s (s.pc g)

theorem owner_of_pending {expr : String} {call : Nat} {pc : PC} (h : Pending expr call pc) :
    owner pc = some (expr, call) := by
  rcases h with rfl | rfl <;> rfl

/-- The call a goroutine waits for or owns. -/
def callOf : PC → Option Nat
  | .wait _ call | .compile _ call | .close _ call | .publish _ call => some call
  | _ => none

section Flight

variable {s t : State ι P ε} {g : ι} {q : PC} {expr : String} {call : Nat}

omit [DecidableEq ι] in
theorem newCache_flight : Flight compile (newCache : State ι P ε) where
  inflight := fun expr call => iff_of_false (by simp [newCache]) (by simp [newCache, owner])
  unique := fun _ _ _ _ _ h => by cases h
  allocated := fun _ _ _ h => by cases h
  phase := fun _ => trivial

omit [DecidableEq ι] in
/-- What a goroutine relies on: its call, and the owners that have not closed
their channels. -/
theorem PhaseOk.congr (hnext : s.next ≤ t.next)
    (hcalls : ∀ id, callOf q = some id → t.calls id = s.calls id)
    (hpending : ∀ e c, callOf q = some c →
      (∃ g, Pending e c (s.pc g)) → ∃ g, Pending e c (t.pc g))
    (h : PhaseOk compile s q) : PhaseOk compile t q := by
  cases q with
  | idle | lookup | slow => trivial
  | wait e c =>
    have hc : t.calls c = s.calls c := hcalls c rfl
    refine ⟨h.1.trans_le hnext, h.2.imp (fun hdone => ?_) (hpending e c rfl)⟩
    simp only [Done, hc] at hdone ⊢
    exact hdone
  | compile e c | close e c | publish e c =>
    have hc : t.calls c = s.calls c := hcalls c rfl
    simp only [PhaseOk, Done, hc] at h ⊢
    exact h

theorem pc_goto (s : State ι P ε) (g g' : ι) (q : PC) :
    (s.goto g q).pc g' = if g' = g then q else s.pc g' := by
  simp [State.goto, Function.update_apply]

/-- Owners that have not closed their channels stay as long as the goroutine
that moves on is not one of them. -/
theorem pending_update {pc : ι → PC} {e : String} {c : Nat} (hg : ¬ Pending e c (pc g))
    (h : ∃ g', Pending e c (pc g')) : ∃ g', Pending e c (Function.update pc g q g') := by
  obtain ⟨g', hpending⟩ := h
  have hne : g' ≠ g := by
    rintro rfl
    exact hg hpending
  exact ⟨g', by rwa [Function.update_of_ne hne]⟩

theorem not_pending_of_owner {pc : PC} (h : owner pc = none) (e : String) (c : Nat) :
    ¬ Pending e c pc := by
  intro hpending
  rw [owner_of_pending hpending] at h
  cases h

/-- A goroutine without a call of its own moves on without one. -/
theorem Flight.move (h : Flight compile s) (hg : owner (s.pc g) = none) (hq : owner q = none)
    (hphase : PhaseOk compile s q) : Flight compile (s.goto g q) := by
  have hpc : ∀ g' e c, owner ((s.goto g q).pc g') = some (e, c) ↔
      owner (s.pc g') = some (e, c) := by
    intro g' e c
    rw [pc_goto]
    split
    · next heq => rw [heq, hg, hq]
    · rfl
  have hkeep : ∀ pc, PhaseOk compile s pc → PhaseOk compile (s.goto g q) pc := by
    intro pc
    exact PhaseOk.congr (t := s.goto g q) le_rfl (fun _ _ => rfl)
      fun e c _ => pending_update (not_pending_of_owner hg e c)
  refine ⟨fun e c => ?_, fun g₁ g₂ e₁ e₂ c h₁ h₂ => ?_, fun g' e c hc => ?_, fun g' => ?_⟩
  · simp only [hpc]
    exact h.inflight e c
  · exact h.unique g₁ g₂ e₁ e₂ c ((hpc _ _ _).mp h₁) ((hpc _ _ _).mp h₂)
  · exact h.allocated g' e c ((hpc _ _ _).mp hc)
  · rw [pc_goto]
    split
    · exact hkeep q hphase
    · exact hkeep _ (h.phase g')

omit [DecidableEq ι] in
/-- The calls goroutines hold have been allocated. -/
theorem Flight.callOf_lt (h : Flight compile s) {id : Nat} (hid : callOf (s.pc g) = some id) :
    id < s.next := by
  have hphase := h.phase g
  cases hpc : s.pc g with
  | idle | lookup | slow => rw [hpc] at hid; cases hid
  | wait e c =>
    rw [hpc] at hid hphase
    cases hid
    exact hphase.1
  | compile e c | close e c | publish e c =>
    rw [hpc] at hid
    cases hid
    exact h.allocated g e _ (by rw [hpc]; rfl)

/-- A new call. -/
theorem Flight.lead (h : Flight compile s) (hg : owner (s.pc g) = none)
    (hnone : s.inflight.lookup expr = none) :
    Flight compile (({ s with
      inflight := s.inflight.insert expr s.next, next := s.next + 1 }.setCall s.next {}).goto g
        (.compile expr s.next)) := by
  have hother : ∀ g' c, owner (s.pc g') ≠ some (expr, c) := by
    intro g' c hown
    have := (h.inflight expr c).mpr ⟨g', hown⟩
    rw [hnone] at this
    cases this
  refine ⟨fun e c => ?_, fun g₁ g₂ e₁ e₂ c h₁ h₂ => ?_, fun g' e c hc => ?_, fun g' => ?_⟩
  · change (s.inflight.insert expr s.next).lookup e = some c ↔ _
    by_cases he : e = expr
    · rw [he, Finmap.lookup_insert]
      constructor
      · rintro hc
        cases hc
        exact ⟨g, by rw [pc_goto, if_pos rfl]; rfl⟩
      · rintro ⟨g', hown⟩
        rw [pc_goto] at hown
        split at hown
        · cases hown
          rfl
        · exact absurd hown (hother g' c)
    · rw [Finmap.lookup_insert_of_ne _ he, h.inflight]
      constructor
      · rintro ⟨g', hown⟩
        refine ⟨g', ?_⟩
        rw [pc_goto, if_neg]
        · exact hown
        · rintro rfl
          rw [hg] at hown
          cases hown
      · rintro ⟨g', hown⟩
        rw [pc_goto] at hown
        split at hown
        · cases hown
          exact absurd rfl he
        · exact ⟨g', hown⟩
  · rw [pc_goto] at h₁ h₂
    split at h₁
    · next heq₁ =>
      cases h₁
      split at h₂
      · next heq₂ => rw [heq₁, heq₂]
      · exact absurd (h.allocated g₂ e₂ _ h₂) (lt_irrefl _)
    · split at h₂
      · cases h₂
        exact absurd (h.allocated g₁ e₁ _ h₁) (lt_irrefl _)
      · exact h.unique g₁ g₂ e₁ e₂ c h₁ h₂
  · rw [pc_goto] at hc
    split at hc
    · cases hc
      exact Nat.lt_succ_self _
    · exact Nat.lt_succ_of_lt (h.allocated g' e c hc)
  · rw [pc_goto]
    split
    · exact congrArg CompileCall.closed (Function.update_self s.next _ s.calls)
    · refine PhaseOk.congr (s := s) (Nat.le_succ _) (fun id hid => ?_) ?_ (h.phase g')
      · exact Function.update_of_ne (h.callOf_lt hid).ne _ _
      · exact fun e c _ => pending_update (not_pending_of_owner hg e c)

/-- Another goroutine that holds the call of the owner waits for it, and still
does or finds its result. -/
theorem Flight.waiting_of_advance (h : Flight compile s)
    (hg : owner (s.pc g) = some (expr, call)) {g' : ι} (hne : g' ≠ g)
    (hcall : callOf (s.pc g') = some call) (hopen : (s.calls call).closed = false)
    {c : CompileCall P ε}
    (hwait : Pending expr call q ∨ c.closed ∧ c.result = resultOf compile expr) :
    PhaseOk compile ((s.setCall call c).goto g q) (s.pc g') := by
  have hphase := h.phase g'
  cases hpc : s.pc g' with
  | idle | lookup | slow => rw [hpc] at hcall; cases hcall
  | compile e _ | close e _ | publish e _ =>
    rw [hpc] at hcall
    cases hcall
    exact absurd (h.unique g' g e expr call (by rw [hpc]; rfl) hg) hne
  | wait e _ =>
    rw [hpc] at hcall hphase
    cases hcall
    refine ⟨hphase.1, ?_⟩
    rcases hphase.2 with hdone | ⟨g₂, hpending⟩
    · rw [hdone.1] at hopen
      cases hopen
    · have heq := h.unique g₂ g e expr call (owner_of_pending hpending) hg
      rw [heq] at hpending
      rw [owner_of_pending hpending] at hg
      cases hg
      rcases hwait with hq | hdone
      · exact .inr ⟨g, by rwa [pc_goto, if_pos rfl]⟩
      · refine .inl ?_
        have hc : ((s.setCall call c).goto g q).calls call = c := Function.update_self ..
        unfold Done
        rw [hc]
        exact hdone

/-- The owner of a call changes it and goes on to its next step. -/
theorem Flight.advance (h : Flight compile s) (hg : owner (s.pc g) = some (expr, call))
    (hq : owner q = some (expr, call)) {c : CompileCall P ε}
    (hopen : (s.calls call).closed = false)
    (hphase : PhaseOk compile ((s.setCall call c).goto g q) q)
    (hwait : Pending expr call q ∨ c.closed ∧ c.result = resultOf compile expr) :
    Flight compile ((s.setCall call c).goto g q) := by
  have hpc : ∀ g', owner (((s.setCall call c).goto g q).pc g') = owner (s.pc g') := by
    intro g'
    rw [pc_goto]
    split
    · next heq => rw [heq, hg, hq]
    · rfl
  refine ⟨fun e c => ?_, fun g₁ g₂ e₁ e₂ c h₁ h₂ => ?_, fun g' e c hc => ?_, fun g' => ?_⟩
  · simp only [hpc]
    exact h.inflight e c
  · rw [hpc] at h₁ h₂
    exact h.unique g₁ g₂ e₁ e₂ c h₁ h₂
  · rw [hpc] at hc
    exact h.allocated g' e c hc
  · rw [pc_goto]
    split
    · exact hphase
    · next hne =>
      by_cases hcall : callOf (s.pc g') = some call
      · exact h.waiting_of_advance hg hne hcall hopen hwait
      · refine PhaseOk.congr (s := s) le_rfl (fun id hid => ?_) ?_ (h.phase g')
        · refine Function.update_of_ne ?_ _ _
          rintro rfl
          exact hcall hid
        · intro e c hc
          refine pending_update fun hpending => hcall ?_
          rw [owner_of_pending hpending] at hg
          cases hg
          exact hc

/-- The owner of a call takes it out of the flight. -/
theorem Flight.finish (h : Flight compile s) (hg : s.pc g = .publish expr call) :
    Flight compile ({ s with inflight := s.inflight.erase expr }.goto g .idle) := by
  have hown : owner (s.pc g) = some (expr, call) := by rw [hg]; rfl
  have hcall : s.inflight.lookup expr = some call := (h.inflight expr call).mpr ⟨g, hown⟩
  refine ⟨fun e c => ?_, fun g₁ g₂ e₁ e₂ c h₁ h₂ => ?_, fun g' e c hc => ?_, fun g' => ?_⟩
  · change (s.inflight.erase expr).lookup e = some c ↔ _
    by_cases he : e = expr
    · rw [he, Finmap.lookup_erase]
      refine iff_of_false (by simp) ?_
      rintro ⟨g', hown'⟩
      rw [pc_goto] at hown'
      split at hown'
      · cases hown'
      · next hne =>
        -- its call is the one in flight, which the goroutine owned alone
        have hc := (h.inflight expr c).mpr ⟨g', hown'⟩
        rw [hcall] at hc
        cases hc
        exact hne (h.unique g' g expr expr call hown' hown)
    · rw [Finmap.lookup_erase_ne he, h.inflight]
      constructor
      · rintro ⟨g', hown'⟩
        refine ⟨g', ?_⟩
        rw [pc_goto, if_neg]
        · exact hown'
        · rintro rfl
          rw [hown] at hown'
          cases hown'
          exact he rfl
      · rintro ⟨g', hown'⟩
        rw [pc_goto] at hown'
        split at hown'
        · cases hown'
        · exact ⟨g', hown'⟩
  · rw [pc_goto] at h₁ h₂
    split at h₁
    · cases h₁
    · split at h₂
      · cases h₂
      · exact h.unique g₁ g₂ e₁ e₂ c h₁ h₂
  · rw [pc_goto] at hc
    split at hc
    · cases hc
    · exact h.allocated g' e c hc
  · rw [pc_goto]
    split
    · trivial
    · refine PhaseOk.congr (s := s) le_rfl (fun _ _ => rfl) ?_ (h.phase g')
      refine fun e c _ => pending_update ?_
      rw [hg]
      rintro (hp | hp) <;> cases hp

omit [DecidableEq ι] in
theorem Flight.open_of_pending (h : Flight compile s) (hg : Pending expr call (s.pc g)) :
    (s.calls call).closed = false := by
  have hphase := h.phase g
  rcases hg with hpc | hpc
  · rw [hpc] at hphase
    exact hphase
  · rw [hpc] at hphase
    exact hphase.1

omit [DecidableEq ι] in
/-- A call in flight can be waited for. -/
theorem Flight.waitable (h : Flight compile s) (hg : owner (s.pc g) = some (expr, call)) :
    Done compile s expr call ∨ ∃ g', Pending expr call (s.pc g') := by
  have hphase := h.phase g
  cases hpc : s.pc g with
  | idle | lookup | slow | wait => rw [hpc] at hg; cases hg
  | compile =>
    rw [hpc] at hg
    cases hg
    exact .inr ⟨g, .inl hpc⟩
  | close =>
    rw [hpc] at hg
    cases hg
    exact .inr ⟨g, .inr hpc⟩
  | publish =>
    rw [hpc] at hg hphase
    cases hg
    exact .inl hphase

omit [DecidableEq ι] in
/-- The entries do not matter. -/
theorem Flight.store (h : Flight compile s) (entries : Entries P) (e : String)
    (program : Option P) : Flight compile (s.store entries e program) :=
  ⟨h.inflight, h.unique, h.allocated, h.phase⟩

end Flight

/-! ## Correctness -/

/-- The cache in this state and the results returned so far. -/
structure Correct (compile : String → Except ε P) (capacity : Nat)
    (x : State ι P ε × List (Event ι P ε)) : Prop where
  /-- An expression is compiled once at a time. -/
  single : ∀ g g' expr call call', x.1.pc g = .compile expr call →
    x.1.pc g' = .compile expr call' → g = g'
  results : ∀ g expr r, .returned g expr r ∈ x.2 → r = resultOf compile expr
  cached : ∀ expr entry, x.1.entries.lookup expr = some entry →
    ∃ prog, compile expr = .ok prog ∧ entry.program = some prog
  /-- What a goroutine waits for is there or is being made. -/
  waiting : ∀ g expr call, x.1.pc g = .wait expr call →
    (x.1.calls call).closed ∨ ∃ g', Pending expr call (x.1.pc g')
  drained : (∀ g, owner (x.1.pc g) = none) → x.1.inflight = ∅
  size : x.1.entries.keys.card ≤ capacity

/-- A program is inserted only if there is room or a clock below `2 ^ 64 - 1`. -/
def Evicts (compile : String → Except ε P) (capacity : Nat)
    (x : State ι P ε × List (Event ι P ε)) : Action ι P → Prop
  | .publish g _ =>
    match x.1.pc g with
    | .publish expr _ => (resultOf compile expr).2 = none → expr ∉ x.1.entries →
        x.1.entries.keys.card < capacity ∨ HasOlder x.1.entries
    | _ => True
  | _ => True

structure Inv (compile : String → Except ε P) (x : State ι P ε × List (Event ι P ε)) : Prop where
  flight : Flight compile x.1
  entries : ∀ expr entry, x.1.entries.lookup expr = some entry →
    (entry.program, none) = resultOf compile expr
  results : ∀ g expr r, .returned g expr r ∈ x.2 → r = resultOf compile expr

omit [DecidableEq ι] in
theorem newCache_inv : Inv compile ((newCache : State ι P ε), []) where
  flight := newCache_flight
  entries := fun _ _ h => by cases h
  results := fun _ _ _ h => by cases h

theorem ok_of_resultOf {expr : String} {program : Option P}
    (h : (program, none) = resultOf compile expr) :
    ∃ prog, compile expr = .ok prog ∧ program = some prog := by
  unfold resultOf at h
  split at h
  · next prog hok => exact ⟨prog, hok, congrArg Prod.fst h⟩
  · cases congrArg Prod.snd h

theorem eq_resultOf_of_err {expr : String} {err : CompileError ε}
    (h : (resultOf compile expr).2 = some err) : (none, some err) = resultOf compile expr := by
  unfold resultOf at h ⊢
  split at h
  · cases h
  · rw [← h]

section Inv

variable {s t : State ι P ε} {log es : List (Event ι P ε)} {a : Action ι P}

omit [DecidableEq ι] in
theorem Inv.correct_iff {x : State ι P ε × List (Event ι P ε)} (h : Inv compile x) :
    Correct compile capacity x ↔ x.1.entries.keys.card ≤ capacity := by
  refine ⟨Correct.size, fun hsize => ⟨?_, h.results, ?_, ?_, ?_, hsize⟩⟩
  · intro g g' expr call call' hg hg'
    have hown : owner (x.1.pc g) = some (expr, call) := by rw [hg]; rfl
    have hown' : owner (x.1.pc g') = some (expr, call') := by rw [hg']; rfl
    have hcall := (h.flight.inflight expr call).mpr ⟨g, hown⟩
    rw [(h.flight.inflight expr call').mpr ⟨g', hown'⟩] at hcall
    cases hcall
    exact h.flight.unique g g' expr expr _ hown hown'
  · exact fun expr entry hentry => ok_of_resultOf (h.entries expr entry hentry)
  · intro g expr call hg
    have hphase := h.flight.phase g
    rw [hg] at hphase
    exact hphase.2.imp And.left id
  · intro hnone
    refine Finmap.ext_lookup fun expr => ?_
    rw [Finmap.lookup_empty]
    cases hcall : x.1.inflight.lookup expr with
    | none => rfl
    | some call =>
      obtain ⟨g, hg⟩ := (h.flight.inflight expr call).mp hcall
      rw [hnone g] at hg
      cases hg

omit [DecidableEq ι] in
/-- The results of a step join those returned before. -/
theorem Inv.returned (h : Inv compile (s, log)) {g : ι} {expr : String} {r : Result P ε}
    (hr : r = resultOf compile expr) :
    ∀ g' expr' r', .returned g' expr' r' ∈ log ++ [.returned g expr r] →
      r' = resultOf compile expr' := by
  intro g' expr' r' hmem
  rcases List.mem_append.mp hmem with hmem | hmem
  · exact h.results g' expr' r' hmem
  · cases List.mem_singleton.mp hmem
    exact hr

omit [DecidableEq ι] in
theorem Inv.silent (h : Inv compile (s, log)) :
    ∀ g expr r, .returned g expr r ∈ log ++ [] → r = resultOf compile expr := by
  rw [List.append_nil]
  exact h.results

/-- Writing the entry of an expression with its own program. -/
theorem entries_store {entries : Entries P} {expr : String} {program : Option P} {clock}
    (h : ∀ e entry, entries.lookup e = some entry → (entry.program, none) = resultOf compile e)
    (hprogram : (program, none) = resultOf compile expr) :
    ∀ e entry, (entries.insert expr ⟨clock, program⟩).lookup e = some entry →
      (entry.program, none) = resultOf compile e := by
  intro e entry he
  rcases lookup_insert_eq_some.mp he with ⟨rfl, rfl⟩ | ⟨-, he⟩
  · exact hprogram
  · exact h e entry he

omit [DecidableEq ι] in
theorem Inv.done (h : Inv compile (s, log)) {g : ι} {expr : String} {call : Nat}
    (hpc : s.pc g = .publish expr call) : (s.calls call).result = resultOf compile expr := by
  have hphase := h.flight.phase g
  rw [hpc] at hphase
  exact hphase.2

theorem Inv.step (h : Inv compile (s, log)) (hs : Does compile capacity s a t es) :
    Inv compile (t, log ++ es) := by
  have hflight : Flight compile s := h.flight
  cases hs with
  | call hpc =>
    exact ⟨hflight.move (by rw [hpc]; rfl) rfl trivial, h.entries, h.silent⟩
  | hit hpc hentry =>
    have hprogram := h.entries _ _ hentry
    refine ⟨(hflight.store ..).move ?_ rfl trivial, entries_store h.entries hprogram,
      h.returned hprogram⟩
    change owner (s.pc _) = none
    rw [hpc]
    rfl
  | miss hpc =>
    exact ⟨hflight.move (by rw [hpc]; rfl) rfl trivial, h.entries, h.silent⟩
  | @join g expr call hpc hcall =>
    refine ⟨hflight.move (by rw [hpc]; rfl) rfl ?_, h.entries, h.silent⟩
    obtain ⟨g', hown⟩ := (hflight.inflight expr call).mp hcall
    exact ⟨hflight.allocated g' expr call hown, hflight.waitable hown⟩
  | lead hpc hcall =>
    exact ⟨hflight.lead (by rw [hpc]; rfl) hcall, h.entries, h.silent⟩
  | @receive g expr call hpc hclosed =>
    refine ⟨hflight.move (by rw [hpc]; rfl) rfl trivial, h.entries, h.returned ?_⟩
    have hphase := hflight.phase g
    rw [hpc] at hphase
    rcases hphase.2 with hdone | ⟨g', hpending⟩
    · exact hdone.2
    · rw [hflight.open_of_pending hpending] at hclosed
      cases hclosed
  | @compile g expr call hpc =>
    have hopen := hflight.open_of_pending (g := g) (.inl hpc)
    refine ⟨hflight.advance (by rw [hpc]; rfl) rfl hopen ?_ (.inl (.inr rfl)), h.entries,
      h.silent⟩
    simp [PhaseOk, State.goto, State.setCall, hopen]
  | @close g expr call hpc =>
    have hopen := hflight.open_of_pending (g := g) (.inr hpc)
    have hphase := hflight.phase g
    rw [hpc] at hphase
    have hresult : (s.calls call).result = resultOf compile expr := hphase.2
    refine ⟨hflight.advance (by rw [hpc]; rfl) rfl hopen ?_ (.inr ⟨rfl, hresult⟩), h.entries,
      h.silent⟩
    simp [PhaseOk, Done, State.goto, State.setCall, hresult]
  | fail hpc herr =>
    refine ⟨hflight.finish hpc, h.entries, h.returned ?_⟩
    rw [h.done hpc] at herr
    exact eq_resultOf_of_err herr
  | again hpc herr hentry =>
    have hprogram := h.entries _ _ hentry
    exact ⟨(hflight.finish hpc).store .., entries_store h.entries hprogram, h.returned hprogram⟩
  | @insert g expr call order hpc herr hentry =>
    have hprogram : ((s.calls call).result.1, none) = resultOf compile expr := by
      rw [← h.done hpc, ← herr]
    refine ⟨(hflight.finish hpc).store .., entries_store ?_ hprogram, h.returned hprogram⟩
    exact fun e entry he => h.entries e entry (evict_lookup he)

/-! ## Size -/

theorem size_step (h : Inv compile (s, log)) (hreject : ∀ prog, compile "" ≠ .ok prog)
    (hsize : s.entries.keys.card ≤ capacity) (hs : Does compile capacity s a t es) :
    t.entries.keys.card ≤ capacity ↔ Evicts compile capacity (s, log) a := by
  have hmem : ∀ {expr entry}, s.entries.lookup expr = some entry → expr ∈ s.entries :=
    fun hentry => Finmap.mem_iff.mpr ⟨_, hentry⟩
  cases hs with
  | hit hpc hentry =>
    refine iff_of_true ?_ trivial
    change (s.entries.insert _ _).keys.card ≤ capacity
    rw [card_insert, if_pos (hmem hentry)]
    exact hsize
  | fail hpc herr =>
    refine iff_of_true hsize ?_
    simp only [Evicts, hpc, ← h.done hpc, herr]
    exact fun hnone => by cases hnone
  | again hpc herr hentry =>
    have hmem := hmem hentry
    constructor
    · intro _
      simp only [Evicts, hpc]
      exact fun _ hnot => absurd hmem hnot
    · intro _
      change (s.entries.insert _ _).keys.card ≤ capacity
      rw [card_insert, if_pos hmem]
      exact hsize
  | @insert g expr call order hpc herr hentry =>
    have hnot : expr ∉ s.entries := Finmap.lookup_eq_none.mp hentry
    have hempty : "" ∉ s.entries := by
      intro hin
      obtain ⟨entry, hentry⟩ := Finmap.mem_iff.mp hin
      obtain ⟨prog, hok, -⟩ := ok_of_resultOf (h.entries "" entry hentry)
      exact hreject prog hok
    have hevicted : expr ∉ evictIfNeeded order capacity s.entries := by
      intro hin
      obtain ⟨entry, hentry'⟩ := Finmap.mem_iff.mp hin
      exact hnot (hmem (evict_lookup hentry'))
    have hok : (resultOf compile expr).2 = none := by rw [← h.done hpc, herr]
    change ((evictIfNeeded order capacity s.entries).insert _ _).keys.card ≤ capacity ↔ _
    rw [card_insert, if_neg hevicted]
    simp only [Evicts, hpc, hok, hnot, not_false_eq_true, true_imp_iff]
    exact evict_card_lt_iff hempty hsize
  | _ => exact iff_of_true hsize trivial

end Inv

/-- From a new cache of any capacity, for any number of goroutines and any order
of their steps: all states are correct exactly when every insertion into a full
cache finds an entry whose clock is not the largest number there is. -/
theorem cache_correct_iff (compile : String → Except ε P)
    (hreject : ∀ prog, compile "" ≠ .ok prog) (capacity : Nat) (as : List (Action ι P)) :
    AllStates (logged (step compile capacity)) (Correct compile capacity) (newCache, []) as ↔
      AllSteps (logged (step compile capacity)) (Evicts compile capacity) (newCache, []) as := by
  refine allStates_iff_allSteps (I := Inv compile) ?_ ?_ newCache_inv ?_ as
  · rintro ⟨s, log⟩ a ⟨t, log'⟩ es hI hs
    obtain ⟨hs, rfl⟩ := logged_eq_some hs
    exact hI.step (step_does hs)
  · rintro ⟨s, log⟩ a ⟨t, log'⟩ es hI hP hs
    obtain ⟨hs, rfl⟩ := logged_eq_some hs
    rw [(hI.step (step_does hs)).correct_iff]
    exact size_step hI hreject hP.size (step_does hs)
  · exact newCache_inv.correct_iff.mpr (Nat.zero_le _)

/-! ## The clock -/

/-- No clock is ahead of the number of returns. -/
structure Clocked (entries : Entries P) (globalClock : U64) (returns : Nat) : Prop where
  global : globalClock.toNat ≤ returns
  entries : ∀ expr entry, entries.lookup expr = some entry → entry.clock.toNat ≤ returns

theorem Clocked.mono {entries : Entries P} {clock : U64} {n m : Nat}
    (h : Clocked entries clock n) (hle : n ≤ m) : Clocked entries clock m :=
  ⟨h.global.trans hle, fun expr entry he => (h.entries expr entry he).trans hle⟩

theorem Clocked.store {entries kept : Entries P} {clock : U64} {n : Nat}
    (h : Clocked entries clock n)
    (hsub : ∀ expr entry, kept.lookup expr = some entry → entries.lookup expr = some entry)
    (expr : String) (program : Option P) :
    Clocked (kept.insert expr ⟨clock + 1, program⟩) (clock + 1) (n + 1) := by
  have hclock : (clock + 1).toNat ≤ n + 1 := by
    rw [BitVec.toNat_add]
    exact (Nat.mod_le _ _).trans (Nat.add_le_add_right h.global 1)
  refine ⟨hclock, fun e entry he => ?_⟩
  rcases lookup_insert_eq_some.mp he with ⟨-, rfl⟩ | ⟨-, he⟩
  · exact hclock
  · exact (h.entries e entry (hsub e entry he)).trans (Nat.le_succ n)

/-- The clock moves only when a call returns. -/
theorem Clocked.step {s t : State ι P ε} {a : Action ι P} {es : List (Event ι P ε)} {n : Nat}
    (h : Clocked s.entries s.globalClock n) (hs : Does compile capacity s a t es) :
    Clocked t.entries t.globalClock (n + es.length) := by
  cases hs with
  | hit => exact h.store (fun _ _ he => he) _ _
  | again => exact h.store (fun _ _ he => he) _ _
  | insert => exact h.store (fun _ _ he => evict_lookup he) _ _
  | _ => exact h.mono (Nat.le_add_right n _)

omit [DecidableEq ι] in
/-- Before the first `2 ^ 64 - 1` returns no insertion fails to make room. -/
theorem Clocked.evicts {s : State ι P ε} {log : List (Event ι P ε)}
    (h : Clocked s.entries s.globalClock log.length) (hlog : log.length < 2 ^ 64 - 1)
    (hcapacity : 1 ≤ capacity) (a : Action ι P) : Evicts compile capacity (s, log) a := by
  cases a with
  | publish g order =>
    simp only [Evicts]
    split
    · intro _ _
      by_cases hroom : s.entries.keys.card < capacity
      · exact .inl hroom
      · obtain ⟨k, hk⟩ := Finset.card_pos.mp (show 0 < s.entries.keys.card by omega)
        obtain ⟨entry, hentry⟩ := Finmap.mem_iff.mp (Finmap.mem_keys.mp hk)
        refine .inr ⟨k, entry, hentry, fun heq => ?_⟩
        have hle := h.entries k entry hentry
        rw [heq, BitVec.toNat_allOnes] at hle
        omega
    · trivial
  | _ => trivial

theorem length_le_one {s t : State ι P ε} {a : Action ι P} {es : List (Event ι P ε)}
    (hs : Does compile capacity s a t es) : es.length ≤ 1 := by
  cases hs <;> simp

/-- Runs of fewer than `2 ^ 64 - 1` steps meet the condition. -/
theorem allSteps_evicts (hcapacity : 1 ≤ capacity) {s : State ι P ε} {log : List (Event ι P ε)}
    (h : Clocked s.entries s.globalClock log.length) {as : List (Action ι P)}
    (hlength : log.length + as.length < 2 ^ 64 - 1) :
    AllSteps (logged (step compile capacity)) (Evicts compile capacity) (s, log) as := by
  induction as generalizing s log with
  | nil => trivial
  | cons a as ih =>
    rw [List.length_cons] at hlength
    simp only [AllSteps]
    split
    · trivial
    · next r hr =>
      obtain ⟨⟨t, log'⟩, es⟩ := r
      obtain ⟨hs, rfl⟩ := logged_eq_some hr
      have hs := step_does hs
      have hes := length_le_one hs
      have hnext : Clocked t.entries t.globalClock (log ++ es).length := by
        rw [List.length_append]
        exact h.step hs
      have hfewer : (log ++ es).length + as.length < 2 ^ 64 - 1 := by
        rw [List.length_append]
        omega
      exact ⟨h.evicts (by omega) hcapacity a, ih hnext hfewer⟩

/-- Compiles every expression but the empty one to itself. -/
def verbatim (expr : String) : Except String String :=
  if expr = "" then .error "empty" else .ok expr

noncomputable def anyOrder (P : Type) : RangeOrder P where
  keys := fun entries => entries.keys.toList
  mem_keys := fun entries k => by rw [Finset.mem_toList, Finmap.mem_keys]
  nodup_keys := fun entries => Finset.nodup_toList _

/-- A whole call that misses. -/
noncomputable def missing {ι : Type} (g : ι) (expr : String) : List (Action ι String) :=
  [.call g expr, .lookup g, .lock g, .compile g, .close g, .publish g (anyOrder String)]

/-- A second expression takes the place of the first while another goroutine
waits for its compilation. -/
theorem cache_correct_iff_evicting :
    AllStates (logged (step verbatim 1)) (Correct verbatim 1) (newCache, [])
      (missing true "a" ++ [.call false "b", .lookup false, .lock false, .call true "b",
        .lookup true, .lock true, .compile false, .close false, .receive true,
        .publish false (anyOrder String)]) := by
  refine (cache_correct_iff verbatim (by simp [verbatim]) 1 _).mpr (allSteps_evicts le_rfl ?_ ?_)
  · exact ⟨Nat.zero_le _, fun _ _ he => by cases he⟩
  · decide

/-! ## At the end of the clock -/

/-- A call that hits, again and again. -/
def hits : Nat → List (Action Unit String)
  | 0 => []
  | n + 1 => .call () "a" :: .lookup () :: hits n

/-- Between calls, with one program in the cache that was used last. -/
structure Hot (clock : U64) (s : State Unit String String) : Prop where
  entries : s.entries = (∅ : Entries String).insert "a" ⟨clock, some "a"⟩
  clock : s.globalClock = clock
  inflight : s.inflight = ∅
  pc : s.pc () = .idle

section Exec

variable {s : State ι P ε} {g : ι} {expr : String}

theorem pc_goto_self (s : State ι P ε) (g : ι) (q : PC) : (s.goto g q).pc g = q := by
  rw [pc_goto, if_pos rfl]

/-- A call of an expression that is neither cached nor in flight compiles it. -/
theorem exec_leading (compile : String → Except ε P) (capacity : Nat) (hpc : s.pc g = .idle)
    (hentry : s.entries.lookup expr = none) (hcall : s.inflight.lookup expr = none) :
    ∃ t, exec (step compile capacity) s
        [.call g expr, .lookup g, .lock g, .compile g, .close g] = some (t, []) ∧
      t.pc g = .publish expr s.next ∧ (t.calls s.next).result = resultOf compile expr ∧
      t.entries = s.entries ∧ t.globalClock = s.globalClock ∧
      t.inflight = s.inflight.insert expr s.next := by
  let s₁ := s.goto g (.lookup expr)
  let s₂ := s₁.goto g (.slow expr)
  let s₃ := ({ s₂ with inflight := s.inflight.insert expr s.next, next := s.next + 1 }.setCall
    s.next {}).goto g (.compile expr s.next)
  let s₄ := (s₃.setCall s.next { s₃.calls s.next with result := resultOf compile expr }).goto g
    (.close expr s.next)
  let s₅ := (s₄.setCall s.next { s₄.calls s.next with closed := true }).goto g
    (.publish expr s.next)
  have h₁ : step compile capacity s (.call g expr) = some (s₁, []) := by
    simp only [step, hpc]
    rfl
  have h₂ : step compile capacity s₁ (.lookup g) = some (s₂, []) := by
    have hentry₁ : s₁.entries.lookup expr = none := hentry
    simp only [step, show s₁.pc g = .lookup expr from pc_goto_self .., hentry₁]
    rfl
  have h₃ : step compile capacity s₂ (.lock g) = some (s₃, []) := by
    have hcall₂ : s₂.inflight.lookup expr = none := hcall
    simp only [step, show s₂.pc g = .slow expr from pc_goto_self .., hcall₂]
    rfl
  have h₄ : step compile capacity s₃ (.compile g) = some (s₄, []) := by
    simp only [step, show s₃.pc g = .compile expr s.next from pc_goto_self ..]
    rfl
  have h₅ : step compile capacity s₄ (.close g) = some (s₅, []) := by
    simp only [step, show s₄.pc g = .close expr s.next from pc_goto_self ..]
    rfl
  have hresult : (s₅.calls s.next).result = resultOf compile expr := by
    have hresult₄ : (s₄.calls s.next).result = resultOf compile expr :=
      congrArg CompileCall.result (Function.update_self s.next _ s₃.calls)
    have hcall₅ : s₅.calls s.next = { s₄.calls s.next with closed := true } :=
      Function.update_self s.next _ s₄.calls
    rw [hcall₅]
    exact hresult₄
  exact ⟨s₅, exec_cons_of_eq h₁ (exec_cons_of_eq h₂ (exec_cons_of_eq h₃ (exec_cons_of_eq h₄
    (exec_cons_of_eq h₅ rfl)))), pc_goto_self .., hresult, rfl, rfl, rfl⟩

/-- The last section of a call that has compiled a new program. -/
theorem step_publish_ok (compile : String → Except ε P) (capacity : Nat) {call : Nat}
    (order : RangeOrder P) {prog : Option P} (hpc : s.pc g = .publish expr call)
    (hresult : (s.calls call).result = (prog, none)) (hentry : s.entries.lookup expr = none) :
    step compile capacity s (.publish g order) =
      some (({ s with inflight := s.inflight.erase expr }.goto g .idle).store
        (evictIfNeeded order capacity s.entries) expr prog, [.returned g expr (prog, none)]) := by
  have hresult' : ((State.goto { s with inflight := s.inflight.erase expr } g .idle).calls
      call).result = (prog, none) := hresult
  have hentry' : (State.goto { s with inflight := s.inflight.erase expr } g
      .idle).entries.lookup expr = none := hentry
  simp only [step, hpc, hresult', hentry']
  rfl

/-- The last section of a call whose compilation has failed. -/
theorem step_publish_error (compile : String → Except ε P) (capacity : Nat) {call : Nat}
    (order : RangeOrder P) {prog : Option P} {err : CompileError ε}
    (hpc : s.pc g = .publish expr call)
    (hresult : (s.calls call).result = (prog, some err)) :
    step compile capacity s (.publish g order) =
      some ({ s with inflight := s.inflight.erase expr }.goto g .idle,
        [.returned g expr (none, some err)]) := by
  have hresult' : ((State.goto { s with inflight := s.inflight.erase expr } g .idle).calls
      call).result = (prog, some err) := hresult
  simp only [step, hpc, hresult']

/-- A call that hits. -/
theorem exec_hit (compile : String → Except ε P) (capacity : Nat) (hpc : s.pc g = .idle)
    {entry : Entry P} (hentry : s.entries.lookup expr = some entry) :
    exec (step compile capacity) s [.call g expr, .lookup g] =
      some (((s.goto g (.lookup expr)).store s.entries expr entry.program).goto g .idle,
        [.returned g expr (entry.program, none)]) := by
  have hcall : step compile capacity s (.call g expr) = some (s.goto g (.lookup expr), []) := by
    simp only [step, hpc]
  have hlookup : step compile capacity (s.goto g (.lookup expr)) (.lookup g) =
      some (((s.goto g (.lookup expr)).store s.entries expr entry.program).goto g .idle,
        [.returned g expr (entry.program, none)]) := by
    have hentry' : (s.goto g (.lookup expr)).entries.lookup expr = some entry := hentry
    simp only [step, pc_goto_self, hentry']
    rfl
  exact exec_cons_of_eq hcall (exec_cons_of_eq hlookup rfl)

end Exec

theorem exec_missing (compile : String → Except ε String) (capacity : Nat)
    {s : State ι String ε} {g : ι} (hpc : s.pc g = .idle) {expr prog : String}
    (hok : compile expr = .ok prog) (hentry : s.entries.lookup expr = none)
    (hcall : s.inflight.lookup expr = none) :
    ∃ t log, exec (step compile capacity) s (missing g expr) = some (t, log) ∧
      t.entries = (evictIfNeeded (anyOrder String) capacity s.entries).insert expr
        ⟨s.globalClock + 1, some prog⟩ ∧
      t.globalClock = s.globalClock + 1 ∧
      t.inflight = (s.inflight.insert expr s.next).erase expr ∧ t.pc g = .idle := by
  obtain ⟨t, hexec, hpublish, hresult, hentries, hclock, hinflight⟩ :=
    exec_leading compile capacity hpc hentry hcall
  rw [resultOf, hok] at hresult
  have hlast := step_publish_ok compile capacity (anyOrder String) hpublish hresult
    (by rw [hentries, hentry])
  refine ⟨_, _, exec_append_of_eq hexec (exec_cons_of_eq hlast rfl), ?_, ?_, ?_, pc_goto_self ..⟩
  · rw [← hentries, ← hclock]
    rfl
  · rw [← hclock]
    rfl
  · rw [← hinflight]
    rfl

theorem exec_hits {clock : U64} {s : State Unit String String} (h : Hot clock s) (n : Nat) :
    ∃ t log, exec (step verbatim 1) s (hits n) = some (t, log) ∧
      Hot (clock + BitVec.ofNat 64 n) t := by
  induction n generalizing clock s with
  | zero =>
    refine ⟨s, [], rfl, ?_⟩
    simpa using h
  | succ n ih =>
    have hentry : s.entries.lookup "a" = some ⟨clock, some "a"⟩ := by
      rw [h.entries, Finmap.lookup_insert]
    have hhot : Hot (clock + 1)
        (((s.goto () (.lookup "a")).store s.entries "a" (some "a")).goto () .idle) := by
      refine ⟨?_, ?_, h.inflight, by rw [pc_goto, if_pos rfl]⟩
      · change s.entries.insert "a" ⟨s.globalClock + 1, some "a"⟩ = _
        rw [h.entries, h.clock, Finmap.insert_insert]
      · change s.globalClock + 1 = clock + 1
        rw [h.clock]
    obtain ⟨t, log, hexec, hot⟩ := ih hhot
    refine ⟨t, _, exec_append_of_eq (exec_hit verbatim 1 h.pc hentry) hexec, ?_⟩
    have hsum : clock + 1 + BitVec.ofNat 64 n = clock + BitVec.ofNat 64 (n + 1) := by
      rw [BitVec.ofNat_add, BitVec.add_assoc, BitVec.add_comm 1]
      rfl
    rwa [← hsum]

theorem not_hasOlder_single :
    ¬ HasOlder ((∅ : Entries String).insert "a" ⟨BitVec.allOnes 64, some "a"⟩) := by
  rintro ⟨k, e, he, hne⟩
  rcases lookup_insert_eq_some.mp he with ⟨-, rfl⟩ | ⟨-, he⟩
  · exact hne rfl
  · cases he

/-- After `2 ^ 64 - 1` uses of its one program the cache of capacity one takes a
second program without giving up the first. -/
theorem over_capacity :
    ∃ s log, exec (step verbatim 1) newCache
        (missing () "a" ++ (hits (2 ^ 64 - 2) ++ missing () "b")) = some (s, log) ∧
      s.entries.keys.card = 2 := by
  obtain ⟨s₁, log₁, hexec₁, hentries₁, hclock₁, hinflight₁, hpc₁⟩ :=
    exec_missing verbatim 1 (s := newCache) (g := ()) rfl (rfl : verbatim "a" = .ok "a") rfl rfl
  have hot₁ : Hot 1 s₁ := by
    refine ⟨?_, hclock₁, ?_, hpc₁⟩
    · rw [hentries₁, evictIfNeeded, if_neg (by decide)]
      rfl
    · rw [hinflight₁]
      refine Finmap.ext_lookup fun k => ?_
      by_cases hk : k = "a"
      · rw [hk, Finmap.lookup_erase, Finmap.lookup_empty]
      · rw [Finmap.lookup_erase_ne hk, Finmap.lookup_insert_of_ne _ hk]
        rfl
  obtain ⟨s₂, log₂, hexec₂, hot₂⟩ := exec_hits hot₁ (2 ^ 64 - 2)
  have hlast : (1 : U64) + BitVec.ofNat 64 (2 ^ 64 - 2) = BitVec.allOnes 64 := by decide
  rw [hlast] at hot₂
  have hother : s₂.entries.lookup "b" = none := by
    rw [hot₂.entries, Finmap.lookup_insert_of_ne _ (by decide)]
    rfl
  obtain ⟨s₃, log₃, hexec₃, hentries₃, -⟩ :=
    exec_missing verbatim 1 hot₂.pc (rfl : verbatim "b" = .ok "b") hother
      (by rw [hot₂.inflight]; rfl)
  refine ⟨s₃, _, exec_append_of_eq hexec₁ (exec_append_of_eq hexec₂ hexec₃), ?_⟩
  have hempty : "" ∉ s₂.entries := by
    rw [hot₂.entries, Finmap.mem_insert]
    exact not_or.mpr ⟨by decide, Finmap.notMem_empty⟩
  have hkept := not_hasOlder_single
  rw [← hot₂.entries] at hkept
  rw [hentries₃, evict_of_not_hasOlder hempty hkept, card_insert,
    if_neg (Finmap.lookup_eq_none.mp hother), hot₂.entries, card_insert,
    if_neg Finmap.notMem_empty]
  rfl

end K8sSched.Cel.SingleFlight
