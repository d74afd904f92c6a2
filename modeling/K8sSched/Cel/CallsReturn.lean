import K8sSched.Lib.FairRounds
import K8sSched.Cel.SingleFlight

/-! # Every call of getOrCompile returns

A goroutine that joins a compilation waits for the goroutine that runs it, which
waits for nobody. However many goroutines there are and whatever else they call,
a call is five steps from its end at most, each its own or that of the goroutine
it waits for: it returns within five rounds of a scheduler that is fair. -/

namespace K8sSched.Cel.CallsReturn
open K8sSched.Cel.Cache K8sSched.Cel.SingleFlight K8sSched.Lib.Runs K8sSched.Lib.FairRounds

variable {ι P ε : Type} [DecidableEq ι] {compile : String → Except ε P} {capacity : Nat}

/-- The goroutine inside `getOrCompile` that takes the step. -/
def actor : Cache.Action ι P → Option ι
  | .call _ _ => none
  | .lookup g | .lock g | .receive g | .compile g | .close g | .publish g _ => some g

/-- The steps from here to the end of the goroutine's call, and whose the next is. -/
inductive Ahead (s : State ι P ε) (g : ι) (expr : String) : Nat → ι → Prop
  | lookup (hpc : s.pc g = .lookup expr) : Ahead s g expr 5 g
  | slow (hpc : s.pc g = .slow expr) : Ahead s g expr 4 g
  | compile {call : Nat} (hpc : s.pc g = .compile expr call) : Ahead s g expr 3 g
  | close {call : Nat} (hpc : s.pc g = .close expr call) : Ahead s g expr 2 g
  | publish {call : Nat} (hpc : s.pc g = .publish expr call) : Ahead s g expr 1 g
  | waitCompile {call : Nat} {k : ι} (hpc : s.pc g = .wait expr call)
      (hk : s.pc k = .compile expr call) : Ahead s g expr 3 k
  | waitClose {call : Nat} {k : ι} (hpc : s.pc g = .wait expr call)
      (hk : s.pc k = .close expr call) : Ahead s g expr 2 k
  | waitClosed {call : Nat} (hpc : s.pc g = .wait expr call)
      (hclosed : (s.calls call).closed) : Ahead s g expr 1 g

section

variable {s t : State ι P ε} {a : Cache.Action ι P} {es : List (Cache.Event ι P ε)} {g : ι}
  {expr : String} {call n : Nat} {i : ι}

theorem does_pc (hd : Does compile capacity s a t es) (hact : actor a ≠ some i)
    (hi : s.pc i ≠ .idle) : t.pc i = s.pc i := by
  have hother : ∀ {k : ι} {pc : PC}, some k ≠ some i → Function.update s.pc k pc i = s.pc i :=
    fun hk => Function.update_of_ne (fun heq : i = _ => hk (congrArg some heq.symm)) _ _
  cases hd with
  | @call k e hpc =>
    exact Function.update_of_ne (fun heq : i = k => hi (heq ▸ hpc)) _ _
  | hit | miss | join | lead | receive | compile | close | fail | again | insert =>
    exact hother hact

/-- A channel that is closed stays so. -/
theorem does_closed (hd : Does compile capacity s a t es) (hlt : call < s.next)
    (hclosed : (s.calls call).closed) : (t.calls call).closed := by
  have hother : ∀ {k : Nat} {c : CompileCall P ε}, (k = call → c.closed) →
      (Function.update s.calls k c call).closed := by
    intro k c hc
    by_cases hk : call = k
    · rw [← hk, Function.update_self]
      exact hc hk.symm
    · rw [Function.update_of_ne hk]
      exact hclosed
  cases hd with
  | lead hpc hcall => exact hother fun heq => absurd heq hlt.ne'
  | compile hpc => exact hother fun heq => heq ▸ hclosed
  | close hpc => exact hother fun _ => rfl
  | _ => exact hclosed

omit [DecidableEq ι] in
/-- A goroutine that waits knows whose step is next. -/
theorem ahead_of_wait (hf : Flight compile s) (hpc : s.pc g = .wait expr call) :
    ∃ m < 4, ∃ j, Ahead s g expr m j := by
  have hphase := hf.phase g
  rw [hpc] at hphase
  rcases hphase.2 with hdone | ⟨k, hk | hk⟩
  · exact ⟨1, by decide, g, .waitClosed hpc hdone.1⟩
  · exact ⟨3, by decide, k, .waitCompile hpc hk⟩
  · exact ⟨2, by decide, k, .waitClose hpc hk⟩

omit [DecidableEq ι] in
theorem Ahead.not_idle (h : Ahead s g expr n i) : s.pc g ≠ .idle ∧ s.pc i ≠ .idle := by
  cases h <;> simp_all

/-- A step of another goroutine leaves the next step where it is. -/
theorem Ahead.other (h : Ahead s g expr n i) (hf : Flight compile s)
    (hd : Does compile capacity s a t es) (hact : actor a ≠ some i) (hg : actor a ≠ some g) :
    Ahead t g expr n i := by
  obtain ⟨hgi, hii⟩ := h.not_idle
  have hpcg := does_pc hd hg hgi
  have hpci := does_pc hd hact hii
  cases h with
  | lookup hpc => exact .lookup (hpcg.trans hpc)
  | slow hpc => exact .slow (hpcg.trans hpc)
  | compile hpc => exact .compile (hpcg.trans hpc)
  | close hpc => exact .close (hpcg.trans hpc)
  | publish hpc => exact .publish (hpcg.trans hpc)
  | waitCompile hpc hk => exact .waitCompile (hpcg.trans hpc) (hpci.trans hk)
  | waitClose hpc hk => exact .waitClose (hpcg.trans hpc) (hpci.trans hk)
  | waitClosed hpc hclosed =>
    have hphase := hf.phase g
    rw [hpc] at hphase
    exact .waitClosed (hpcg.trans hpc) (does_closed hd hphase.1 hclosed)

/-- What the goroutine's own step does, by where it is. -/
def OwnStep (s t : State ι P ε) (es : List (Cache.Event ι P ε)) (i : ι) : PC → Prop
  | .idle => False
  | .lookup e => (∃ r, .returned i e r ∈ es) ∨ t.pc i = .slow e
  | .slow e => (∃ c, t.pc i = .wait e c) ∨ ∃ c, t.pc i = .compile e c
  | .wait e c => (s.calls c).closed ∧ ∃ r, .returned i e r ∈ es
  | .compile e c => t.pc i = .close e c
  | .close e c => t.pc i = .publish e c ∧ (t.calls c).closed
  | .publish e _ => ∃ r, .returned i e r ∈ es

theorem does_own (hd : Does compile capacity s a t es) (hact : actor a = some i) :
    OwnStep s t es i (s.pc i) := by
  have hself : ∀ {pc : ι → PC} {q : PC}, Function.update pc i q i = q := Function.update_self ..
  cases hd with
  | call => cases hact
  | hit hpc hentry =>
    cases hact
    rw [hpc]
    exact .inl ⟨_, List.mem_singleton_self _⟩
  | miss hpc hentry =>
    cases hact
    rw [hpc]
    exact .inr hself
  | join hpc hcall =>
    cases hact
    rw [hpc]
    exact .inl ⟨_, hself⟩
  | lead hpc hcall =>
    cases hact
    rw [hpc]
    exact .inr ⟨_, hself⟩
  | receive hpc hclosed =>
    cases hact
    rw [hpc]
    exact ⟨hclosed, _, List.mem_singleton_self _⟩
  | compile hpc =>
    cases hact
    rw [hpc]
    exact hself
  | close hpc =>
    cases hact
    rw [hpc]
    exact ⟨hself, congrArg CompileCall.closed (Function.update_self _ _ s.calls)⟩
  | fail hpc | again hpc | insert hpc =>
    cases hact
    rw [hpc]
    exact ⟨_, List.mem_singleton_self _⟩

/-- The step of the goroutine whose turn it is leads on. -/
theorem Ahead.own (h : Ahead s g expr n i) (hf : Flight compile t)
    (hd : Does compile capacity s a t es) (hact : actor a = some i) :
    (∃ r, .returned g expr r ∈ es) ∨ ∃ m < n, ∃ j, Ahead t g expr m j := by
  have hown := does_own hd hact
  -- the goroutine that waits stays where it is
  have hwaits : ∀ {call : Nat}, i ≠ g → s.pc g = .wait expr call → t.pc g = .wait expr call := by
    intro call hne hpc
    refine (does_pc hd (fun hg => hne ?_) (by simp [hpc])).trans hpc
    exact Option.some.inj (hact.symm.trans hg)
  cases h with
  | lookup hpc =>
    rw [hpc] at hown
    exact hown.imp_right fun hslow => ⟨4, by decide, g, .slow hslow⟩
  | slow hpc =>
    rw [hpc] at hown
    rcases hown with ⟨c, hwait⟩ | ⟨c, hcompile⟩
    · exact .inr (ahead_of_wait hf hwait)
    · exact .inr ⟨3, by decide, g, .compile hcompile⟩
  | compile hpc =>
    rw [hpc] at hown
    exact .inr ⟨2, by decide, g, .close hown⟩
  | close hpc =>
    rw [hpc] at hown
    exact .inr ⟨1, by decide, g, .publish hown.1⟩
  | publish hpc =>
    rw [hpc] at hown
    exact .inl hown
  | waitCompile hpc hk =>
    rw [hk] at hown
    refine .inr ⟨2, by decide, i, .waitClose (hwaits ?_ hpc) hown⟩
    rintro rfl
    simp [hk] at hpc
  | waitClose hpc hk =>
    rw [hk] at hown
    refine .inr ⟨1, by decide, g, .waitClosed (hwaits ?_ hpc) hown.2⟩
    rintro rfl
    simp [hk] at hpc
  | waitClosed hpc hclosed =>
    rw [hpc] at hown
    exact .inl hown.2

/-- A goroutine that waits for another has no step of its own. -/
theorem Ahead.actor_ne (h : Ahead s g expr n i) (hf : Flight compile s)
    (hd : Does compile capacity s a t es) (hact : actor a ≠ some i) : actor a ≠ some g := by
  intro hg
  have hown := does_own hd hg
  cases h with
  | lookup | slow | compile | close | publish | waitClosed => exact hact hg
  | waitCompile hpc hk =>
    rw [hpc] at hown
    exact absurd hown.1 (by simp [hf.open_of_pending (.inl hk)])
  | waitClose hpc hk =>
    rw [hpc] at hown
    exact absurd hown.1 (by simp [hf.open_of_pending (.inr hk)])

theorem Ahead.enabled (h : Ahead s g expr n i) (order : RangeOrder P) :
    Enabled (step compile capacity) actor s i := by
  cases h with
  | lookup hpc =>
    refine ⟨.lookup g, rfl, ?_⟩
    simp only [step, hpc]
    split <;> rfl
  | slow hpc =>
    refine ⟨.lock g, rfl, ?_⟩
    simp only [step, hpc]
    split <;> rfl
  | compile hpc | waitCompile _ hpc => exact ⟨.compile _, rfl, by simp [step, hpc]⟩
  | close hpc | waitClose _ hpc => exact ⟨.close _, rfl, by simp [step, hpc]⟩
  | publish hpc =>
    refine ⟨.publish g order, rfl, ?_⟩
    simp only [step, hpc]
    split
    · rfl
    · split <;> rfl
  | waitClosed hpc hclosed => exact ⟨.receive g, rfl, by simp [step, hpc, hclosed]⟩

omit [DecidableEq ι] in
theorem Ahead.bounds (h : Ahead s g expr n i) : 0 < n ∧ n ≤ 5 := by
  cases h <;> decide

theorem leads (order : RangeOrder P) (g : ι) (expr : String) :
    Leads (step compile capacity) actor (fun e => ∃ r, e = .returned g expr r)
      fun s n i => (∃ log, SingleFlight.Inv compile (s, log)) ∧ Ahead s g expr n i where
  pos := fun h => h.2.bounds.1
  enabled := fun h => h.2.enabled order
  step := by
    intro s n i a t es h hstep
    obtain ⟨⟨log, hinv⟩, hahead⟩ := h
    have hd := step_does hstep
    have hinvt := hinv.step hd
    by_cases hact : actor a = some i
    · rcases hahead.own hinvt.flight hd hact with ⟨r, hr⟩ | ⟨m, hm, j, hj⟩
      · exact .inl ⟨_, hr, r, rfl⟩
      · exact .inr (.inl ⟨m, hm, j, ⟨_, hinvt⟩, hj⟩)
    · refine .inr (.inr ⟨hact, ⟨_, hinvt⟩, hahead.other hinv.flight hd hact ?_⟩)
      exact hahead.actor_ne hinv.flight hd hact

end

/-- The expression of the call the goroutine is in. -/
def exprOf : PC → Option String
  | .idle => none
  | .lookup expr | .slow expr | .wait expr _ | .compile expr _ | .close expr _
  | .publish expr _ => some expr

omit [DecidableEq ι] in
theorem exists_ahead {s : State ι P ε} (hf : Flight compile s) {g : ι} {expr : String}
    (hg : exprOf (s.pc g) = some expr) : ∃ n i, Ahead s g expr n i := by
  cases hpc : s.pc g with
  | idle => rw [hpc] at hg; cases hg
  | lookup => rw [hpc] at hg; cases hg; exact ⟨_, _, .lookup hpc⟩
  | slow => rw [hpc] at hg; cases hg; exact ⟨_, _, .slow hpc⟩
  | wait =>
    rw [hpc] at hg
    cases hg
    obtain ⟨m, -, hahead⟩ := ahead_of_wait hf hpc
    exact ⟨m, hahead⟩
  | compile => rw [hpc] at hg; cases hg; exact ⟨_, _, .compile hpc⟩
  | close => rw [hpc] at hg; cases hg; exact ⟨_, _, .close hpc⟩
  | publish => rw [hpc] at hg; cases hg; exact ⟨_, _, .publish hpc⟩

theorem Run.inv {s : State ι P ε} {log : List (Cache.Event ι P ε)}
    {ok : State ι P ε → Cache.Action ι P → Prop}
    (h : Run (step compile capacity) ok newCache log s) : SingleFlight.Inv compile (s, log) :=
  h.invariant (I := fun log s => SingleFlight.Inv compile (s, log)) newCache_inv
    fun _ _ _ _ _ hI _ hstep => hI.step (step_does hstep)

/-- In every state the goroutines can reach, a goroutine in a call returns with
the result for its expression within five fair rounds, whatever the others do. -/
theorem calls_return {s t : State ι P ε} {log tr : List (Cache.Event ι P ε)}
    (h : Run (step compile capacity) (fun _ _ => True) newCache log s) {g : ι} {expr : String}
    (hg : exprOf (s.pc g) = some expr) {rounds : List (List (Cache.Action ι P))}
    (hlen : 5 ≤ rounds.length) (hfair : Rounds (step compile capacity) actor s rounds)
    (hexec : exec (step compile capacity) s rounds.flatten = some (t, tr)) :
    .returned g expr (resultOf compile expr) ∈ tr := by
  have hinv := Run.inv h
  obtain ⟨n, i, hahead⟩ := exists_ahead hinv.flight hg
  obtain ⟨e, he, r, rfl⟩ := (leads (anyOrder P) g expr).rounds ⟨⟨log, hinv⟩, hahead⟩
    (hahead.bounds.2.trans hlen) hfair hexec
  have hrun : Run (step compile capacity) (fun _ _ => True) newCache (log ++ tr) t :=
    h.trans (Run.of_exec (allSteps_of_forall _ fun _ _ _ => trivial) hexec)
  rw [← (Run.inv hrun).results g expr r (List.mem_append_right _ he)]
  exact he

theorem not_enabled_of_open {s : State ι P ε} {i : ι} {expr : String} {call : Nat}
    (hpc : s.pc i = .wait expr call) (hopen : (s.calls call).closed = false) :
    ¬ Enabled (step compile capacity) actor s i := by
  rintro ⟨a, hact, hs⟩
  obtain ⟨⟨t, es⟩, hstep⟩ := Option.isSome_iff_exists.mp hs
  have hown := does_own (step_does hstep) hact
  rw [hpc] at hown
  have hclosed : (s.calls call).closed = true := hown.1
  rw [hopen] at hclosed
  cases hclosed

/-- Two goroutines call for one expression; the second waits for the first. -/
noncomputable def sharing : List (List (Cache.Action Bool String)) :=
  [[.lookup true, .lookup false], [.lock true, .lock false], [.compile true], [.close true],
    [.publish true (anyOrder String), .receive false]]

def twoCalls : List (Cache.Action Bool String) := [.call true "a", .call false "a"]

theorem calls_return_sharing :
    ∃ (s t : State Bool String String) (tr : List (Cache.Event Bool String String)),
      Run (step verbatim 1) (fun _ _ => True) newCache [] s ∧
      exec (step verbatim 1) s sharing.flatten = some (t, tr) ∧
      .returned false "a" (some "a", none) ∈ tr := by
  have h : Run (step verbatim 1) (fun _ _ => True) newCache _ _ :=
    Run.of_isSome twoCalls (allSteps_of_forall _ fun _ _ _ => trivial) rfl
  have hboth : ∀ {s : State Bool String String} {a b : Cache.Action Bool String},
      actor a = some true → actor b = some false → (step verbatim 1 s a).isSome →
      ∀ i, Fair (step verbatim 1) actor i s [a, b] := by
    intro s a b ha hb hs i
    obtain ⟨⟨t, es⟩, hstep⟩ := Option.isSome_iff_exists.mp hs
    cases i with
    | true => exact .inr (.inl ha)
    | false => exact .inr (.inr ⟨t, es, hstep, .inr (.inl hb)⟩)
  have hfirst : ∀ {s : State Bool String String} {a : Cache.Action Bool String},
      actor a = some true → s.pc false = .wait "a" 0 → (s.calls 0).closed = false →
      ∀ i, Fair (step verbatim 1) actor i s [a] := by
    intro s a ha hpc hopen i
    cases i with
    | true => exact .inr (.inl ha)
    | false => exact .inl (not_enabled_of_open hpc hopen)
  have hfair : Rounds (step verbatim 1) actor
      ((exec (step verbatim 1) newCache twoCalls).get rfl).1 sharing := by
    refine ⟨hboth rfl rfl rfl, fun s₁ _ h₁ => ?_⟩
    cases h₁
    refine ⟨hboth rfl rfl rfl, fun s₂ _ h₂ => ?_⟩
    cases h₂
    refine ⟨hfirst rfl rfl rfl, fun s₃ _ h₃ => ?_⟩
    cases h₃
    refine ⟨hfirst rfl rfl rfl, fun s₄ _ h₄ => ?_⟩
    cases h₄
    exact ⟨hboth rfl rfl rfl, fun _ _ _ => trivial⟩
  exact ⟨_, _, _, h, rfl, calls_return h rfl (by decide) hfair rfl⟩

end K8sSched.Cel.CallsReturn
