import K8sSched.Lib.FairRounds

/-! # From the first signal to the end of the agent

`run` of `cmd/agent/main.go` and `Agent.Run` of `internal/sched/agent.go`: a
goroutine that receives signals and cancels the context, at once or after the
handoff delay, and the main goroutine, which loads the scheduler, starts the
watchers, serves, and on its way out removes the pins and closes the link. Time
is in nanoseconds; what the calls return and when the policy informer has synced
is left open. -/

namespace K8sSched.Agent.Lifecycle
open K8sSched.Lib.Runs K8sSched.Lib.FairRounds

def handoffDelay : Nat := 15000000000

def attachRetryInterval : Nat := 2000000000

inductive Signal
  | sigint | sigterm
  deriving DecidableEq

/-- The goroutine that waits for signals: for the first one, in the `select`
after a SIGTERM, before its call of `cancel`, and after it. -/
inductive Waiter
  | first
  | window (deadline : Nat)
  | cancel
  | done
  deriving DecidableEq

/-- The next step of the main goroutine. -/
inductive Pc
  | newAgent
  | load
  | readOps
  | pause (wake : Nat)
  | openMaps
  | setGauge
  | startResolver
  | waitForCacheSync
  | startWatcher
  | startMetricsServer
  | storeReady
  | serve
  | shutdown
  | removePins
  | closeLink
  | exited (code : Nat)
  deriving DecidableEq

/-- What goes on beside the main goroutine. -/
structure Beside where
  now : Nat
  sigCh : List Signal
  waiter : Waiter
  cancelled : Bool
  hasSynced : Bool

structure AgentRun where
  pc : Pc
  schedLoaded : Bool
  link : Bool
  pinsRemoved : Bool
  schedulerLoaded : Option Bool
  ready : Bool
  /-- `stopCh`, which the informers and the resolver wait on, is closed. -/
  stopClosed : Bool

structure Process where
  beside : Beside
  agent : AgentRun

inductive Main
  | newAgent (ok : Bool)
  | load (ok : Bool)
  | readOps (contended : Bool)
  | retry
  | ctxDone
  | fallBack
  | stopped
  | proceed

inductive Other
  | tick (ns : Nat)
  | signal (sig : Signal)
  | sync
  | receive
  | timer
  | second
  | cancel
  deriving DecidableEq

inductive Action
  | other (a : Other)
  | main (a : Main)

inductive Event
  | signalled (sig : Signal) (time : Nat)
  | attached (time : Nat)
  | pinsRemoved (time : Nat)
  | detached (time : Nat)
  | exited (code : Nat)
  deriving DecidableEq

/-- The channel for signals holds two; `signal.Notify` drops what does not fit. -/
def otherStep (b : Beside) : Other → Option (Beside × List Event)
  | .tick ns => some ({ b with now := b.now + ns }, [])
  | .signal sig =>
    some ({ b with sigCh := if b.sigCh.length < 2 then b.sigCh ++ [sig] else b.sigCh },
      [.signalled sig b.now])
  | .sync => some ({ b with hasSynced := true }, [])
  | .receive =>
    match b.waiter, b.sigCh with
    | .first, sig :: rest =>
      let waiter := if sig = .sigterm then .window (b.now + handoffDelay) else .cancel
      some ({ b with sigCh := rest, waiter := waiter }, [])
    | _, _ => none
  | .timer =>
    match b.waiter with
    | .window deadline => if deadline ≤ b.now then some ({ b with waiter := .cancel }, []) else none
    | _ => none
  | .second =>
    match b.waiter, b.sigCh with
    | .window _, _ :: rest => some ({ b with sigCh := rest, waiter := .cancel }, [])
    | _, _ => none
  | .cancel =>
    if b.waiter = .cancel then some ({ b with waiter := .done, cancelled := true }, []) else none

/-- The main goroutine. `Resolver.Start` falls back to polling and returns, or
waits for the informer's cache: until it has synced, or until `stopCh` is closed,
after which it falls back as well. -/
def mainStep (b : Beside) (s : AgentRun) : Main → Option (AgentRun × List Event)
  | .newAgent ok =>
    if s.pc = .newAgent then
      if ok then some ({ s with pc := .load }, [])
      else some ({ s with pc := .exited 1 }, [.exited 1])
    else none
  | .load ok =>
    if s.pc = .load then
      if ok then
        some ({ s with pc := .openMaps, schedLoaded := true, link := true }, [.attached b.now])
      else some ({ s with pc := .readOps }, [])
    else none
  | .readOps contended =>
    if s.pc = .readOps then
      if !contended || b.cancelled then some ({ s with pc := .setGauge }, [])
      else some ({ s with pc := .pause (b.now + attachRetryInterval) }, [])
    else none
  | .retry =>
    match s.pc with
    | .pause wake => if wake ≤ b.now then some ({ s with pc := .load }, []) else none
    | _ => none
  | .ctxDone =>
    match s.pc with
    | .pause _ => if b.cancelled then some ({ s with pc := .setGauge }, []) else none
    | _ => none
  | .fallBack => if s.pc = .startResolver then some ({ s with pc := .startWatcher }, []) else none
  | .stopped =>
    -- `WaitForCacheSync` returns false
    if s.pc = .waitForCacheSync ∧ s.stopClosed = true then
      some ({ s with pc := .startWatcher }, [])
    else none
  | .proceed =>
    match s.pc with
    | .openMaps => some ({ s with pc := .setGauge }, [])
    | .setGauge =>
      some ({ s with pc := .startResolver, schedulerLoaded := some s.schedLoaded }, [])
    | .startResolver => some ({ s with pc := .waitForCacheSync }, [])
    | .waitForCacheSync => if b.hasSynced then some ({ s with pc := .startWatcher }, []) else none
    | .startWatcher => some ({ s with pc := .startMetricsServer }, [])
    | .startMetricsServer => some ({ s with pc := .storeReady }, [])
    | .storeReady => some ({ s with pc := .serve, ready := s.schedLoaded }, [])
    | .serve => if b.cancelled then some ({ s with pc := .shutdown }, []) else none
    | .shutdown =>
      -- `close(stopCh)`; the other calls are deferred after a successful load only
      if s.schedLoaded then some ({ s with pc := .removePins, stopClosed := true }, [])
      else some ({ s with pc := .exited 0, stopClosed := true }, [.exited 0])
    | .removePins =>
      some ({ s with pc := .closeLink, pinsRemoved := true }, [.pinsRemoved b.now])
    | .closeLink =>
      some ({ s with pc := .exited 0, link := false }, [.detached b.now, .exited 0])
    | _ => none

def step (s : Process) : Action → Option (Process × List Event)
  | .other a => (otherStep s.beside a).map fun r => ({ s with beside := r.1 }, r.2)
  | .main a => (mainStep s.beside s.agent a).map fun r => ({ s with agent := r.1 }, r.2)

def start : Process where
  beside := ⟨0, [], .first, false, false⟩
  agent := ⟨.newAgent, false, false, false, none, false, false⟩

/-! ## Signals -/

def Event.signal? : Event → Option (Signal × Nat)
  | .signalled sig time => some (sig, time)
  | _ => none

/-- The signals of a run and when they came. -/
def signals (tr : List Event) : List (Signal × Nat) := tr.filterMap Event.signal?

/-- The agent may let go of the scheduler: the first signal was a SIGINT, or
there was a second one, or the delay has passed. -/
def Released (tr : List Event) (now : Nat) : Prop :=
  match signals tr with
  | [] => False
  | (sig, time) :: rest => sig = .sigint ∨ rest ≠ [] ∨ time + handoffDelay ≤ now

theorem signals_append (tr es : List Event) : signals (tr ++ es) = signals tr ++ signals es :=
  List.filterMap_append

theorem Released.mono {tr : List Event} {now later : Nat} (h : Released tr now)
    (hle : now ≤ later) (es : List Event) : Released (tr ++ es) later := by
  unfold Released at h ⊢
  rw [signals_append]
  cases hsig : signals tr with
  | nil =>
    rw [hsig] at h
    exact h.elim
  | cons p rest =>
    rw [hsig] at h
    rcases h with h | h | h
    · exact .inl h
    · exact .inr (.inl (by simp [h]))
    · exact .inr (.inr (Nat.le_trans h hle))

/-- What the signal goroutine knows at each stage. -/
def Waits (tr : List Event) (b : Beside) : Waiter → Prop
  | .first => b.sigCh = ((signals tr).map Prod.fst).take 2
  | .window deadline => ∃ time rest, signals tr = (.sigterm, time) :: rest ∧
      time + handoffDelay ≤ deadline ∧ (b.sigCh ≠ [] → rest ≠ [])
  | .cancel | .done => Released tr b.now

structure BesideOk (tr : List Event) (b : Beside) : Prop where
  past : ∀ e ∈ signals tr, e.2 ≤ b.now
  waits : Waits tr b b.waiter
  cancelled : b.cancelled = true → Released tr b.now

section Other

variable {tr es : List Event} {b b' : Beside}

/-- Events of the main goroutine are no signals. -/
theorem BesideOk.of_main (h : BesideOk tr b) (hes : signals es = []) : BesideOk (tr ++ es) b := by
  have hsig : signals (tr ++ es) = signals tr := by rw [signals_append, hes, List.append_nil]
  have hreleased : ∀ now, Released (tr ++ es) now = Released tr now := fun now => by
    unfold Released
    rw [hsig]
  refine ⟨by rw [hsig]; exact h.past, ?_, by rw [hreleased]; exact h.cancelled⟩
  have hwaits := h.waits
  cases hw : b.waiter with
  | first | window deadline =>
    rw [hw] at hwaits
    simpa only [Waits, hsig] using hwaits
  | cancel | done =>
    rw [hw] at hwaits
    simpa only [Waits, hreleased] using hwaits

theorem BesideOk.signal (h : BesideOk tr b) (sig : Signal) :
    BesideOk (tr ++ [.signalled sig b.now])
      { b with sigCh := if b.sigCh.length < 2 then b.sigCh ++ [sig] else b.sigCh } where
  past := by
    intro e he
    rw [signals_append] at he
    rcases List.mem_append.mp he with he | he
    · exact h.past e he
    · have heq : e = (sig, b.now) := List.mem_singleton.mp he
      exact Nat.le_of_eq (by rw [heq])
  waits := by
    have hsig : signals (tr ++ [.signalled sig b.now]) = signals tr ++ [(sig, b.now)] :=
      signals_append tr _
    have hwaits := h.waits
    show Waits _ _ b.waiter
    cases hw : b.waiter with
    | first =>
      rw [hw] at hwaits
      simp only [Waits] at hwaits ⊢
      rw [hsig, hwaits]
      cases hs : signals tr with
      | nil => simp
      | cons p rest =>
        cases rest with
        | nil => simp
        | cons q rest => simp
    | window deadline =>
      rw [hw] at hwaits
      obtain ⟨time, rest, hs, hle, -⟩ := hwaits
      exact ⟨time, rest ++ [(sig, b.now)], by rw [hsig, hs]; rfl, hle, by simp⟩
    | cancel | done =>
      rw [hw] at hwaits
      exact hwaits.mono (Nat.le_refl _) _
  cancelled := fun hc => (h.cancelled hc).mono (Nat.le_refl _) _

theorem BesideOk.tick (h : BesideOk tr b) (ns : Nat) :
    BesideOk tr { b with now := b.now + ns } where
  past := fun e he => Nat.le_trans (h.past e he) (Nat.le_add_right _ _)
  waits := by
    have hwaits := h.waits
    show Waits _ _ b.waiter
    cases hw : b.waiter with
    | first | window deadline =>
      rw [hw] at hwaits
      exact hwaits
    | cancel | done =>
      rw [hw] at hwaits
      simpa [Waits] using hwaits.mono (Nat.le_add_right b.now ns) []
  cancelled := fun hc => by simpa using (h.cancelled hc).mono (Nat.le_add_right b.now ns) []

/-- The first signal that the channel holds is the first there was. -/
theorem BesideOk.receive (h : BesideOk tr b) {sig : Signal} {rest : List Signal}
    (hw : b.waiter = .first) (hch : b.sigCh = sig :: rest) :
    BesideOk tr { b with
      sigCh := rest
      waiter := if sig = .sigterm then .window (b.now + handoffDelay) else .cancel } where
  past := h.past
  waits := by
    have hwaits := h.waits
    rw [hw] at hwaits
    simp only [Waits, hch] at hwaits
    cases hs : signals tr with
    | nil =>
      rw [hs] at hwaits
      cases hwaits
    | cons p more =>
      obtain ⟨sig', time⟩ := p
      rw [hs] at hwaits
      obtain ⟨rfl, hrest⟩ : sig = sig' ∧ rest = (more.map Prod.fst).take 1 := by
        simpa using hwaits
      have htime : time ≤ b.now := h.past (sig, time) (by rw [hs]; exact List.mem_cons_self)
      cases sig with
      | sigterm =>
        refine ⟨time, more, hs, Nat.add_le_add_right htime _, ?_⟩
        rintro hne rfl
        exact hne (by simpa using hrest)
      | sigint =>
        show Released tr b.now
        unfold Released
        rw [hs]
        exact .inl rfl
  cancelled := h.cancelled

theorem BesideOk.step (h : BesideOk tr b) {a : Other} (hs : otherStep b a = some (b', es)) :
    BesideOk (tr ++ es) b' := by
  have hnil : ∀ {c : Beside}, BesideOk tr c → BesideOk (tr ++ []) c := fun hc => by simpa using hc
  have hwaits := h.waits
  cases a with
  | tick ns =>
    cases hs
    exact hnil (h.tick ns)
  | signal sig =>
    cases hs
    exact h.signal sig
  | sync =>
    cases hs
    refine hnil ⟨h.past, ?_, h.cancelled⟩
    show Waits _ _ b.waiter
    cases hw : b.waiter <;> simpa only [Waits, hw] using hwaits
  | receive =>
    simp only [otherStep] at hs
    split at hs
    · next sig rest hw hch =>
      cases hs
      exact hnil (h.receive hw hch)
    · cases hs
  | timer =>
    simp only [otherStep] at hs
    split at hs
    · next deadline hw =>
      split at hs
      · next hdue =>
        cases hs
        rw [hw] at hwaits
        obtain ⟨time, rest, hsig, hle, -⟩ := hwaits
        refine hnil ⟨h.past, ?_, h.cancelled⟩
        show Released tr b.now
        unfold Released
        rw [hsig]
        exact .inr (.inr (Nat.le_trans hle hdue))
      · cases hs
    · cases hs
  | second =>
    simp only [otherStep] at hs
    split at hs
    · next deadline sig rest hw hch =>
      cases hs
      rw [hw] at hwaits
      obtain ⟨time, more, hsig, -, hmore⟩ := hwaits
      refine hnil ⟨h.past, ?_, h.cancelled⟩
      show Released tr b.now
      unfold Released
      rw [hsig]
      exact .inr (.inl (hmore (by simp [hch])))
    · cases hs
  | cancel =>
    simp only [otherStep] at hs
    split at hs
    · next hw =>
      cases hs
      rw [hw] at hwaits
      exact hnil ⟨h.past, hwaits, fun _ => hwaits⟩
    · cases hs

end Other

/-! ## The main goroutine -/

/-- Past `<-ctx.Done()`. -/
def Pc.leaving : Pc → Bool
  | .shutdown | .removePins | .closeLink | .exited 0 => true
  | _ => false

/-- What a step of the main goroutine can do: attach, go on with the link and the
pins as they are, or leave, which it starts when the context is cancelled. -/
inductive MainDoes (b : Beside) (s : AgentRun) : AgentRun → List Event → Prop
  | attach (hpc : s.pc = .load) :
      MainDoes b s { s with pc := .openMaps, schedLoaded := true, link := true } [.attached b.now]
  | goOn {t : AgentRun} {es : List Event} (hpc : s.pc.leaving = false) (hpc' : t.pc.leaving = false)
      (hframe : t.schedLoaded = s.schedLoaded ∧ t.link = s.link ∧ t.pinsRemoved = s.pinsRemoved)
      (hes : es = [] ∨ es = [.exited 1]) : MainDoes b s t es
  | leave {t : AgentRun} {es : List Event} (hpc : s.pc.leaving = true ∨ b.cancelled = true)
      (hpc' : t.pc.leaving = true) (hloaded : t.schedLoaded = s.schedLoaded)
      (hes : ∀ e ∈ es, e = .pinsRemoved b.now ∨ e = .detached b.now ∨ e = .exited 0) :
      MainDoes b s t es

section Main

variable {b : Beside} {s t : AgentRun} {es : List Event}

theorem mainStep_does {a : Main} (hs : mainStep b s a = some (t, es)) : MainDoes b s t es := by
  have hquiet : ∀ {t : AgentRun} {es : List Event}, s.pc.leaving = false → t.pc.leaving = false →
      t.schedLoaded = s.schedLoaded → t.link = s.link → t.pinsRemoved = s.pinsRemoved →
      es = [] ∨ es = [.exited 1] → MainDoes b s t es :=
    fun h₁ h₂ h₃ h₄ h₅ h₆ => .goOn h₁ h₂ ⟨h₃, h₄, h₅⟩ h₆
  cases a with
  | newAgent ok | readOps contended =>
    simp only [mainStep] at hs
    split at hs
    · next hpc =>
      split at hs <;> cases hs <;> exact hquiet (by rw [hpc]; rfl) rfl rfl rfl rfl (by simp)
    · cases hs
  | load ok =>
    simp only [mainStep] at hs
    split at hs
    · next hpc =>
      split at hs
      · cases hs
        exact .attach hpc
      · cases hs
        exact hquiet (by rw [hpc]; rfl) rfl rfl rfl rfl (by simp)
    · cases hs
  | retry | ctxDone =>
    simp only [mainStep] at hs
    split at hs
    · next wake hpc =>
      split at hs
      · cases hs
        exact hquiet (by rw [hpc]; rfl) rfl rfl rfl rfl (by simp)
      · cases hs
    · cases hs
  | fallBack =>
    simp only [mainStep] at hs
    split at hs
    · next hpc =>
      cases hs
      exact hquiet (by rw [hpc]; rfl) rfl rfl rfl rfl (by simp)
    · cases hs
  | stopped =>
    simp only [mainStep] at hs
    split at hs
    · next hstop =>
      cases hs
      exact hquiet (by rw [hstop.1]; rfl) rfl rfl rfl rfl (by simp)
    · cases hs
  | proceed =>
    simp only [mainStep] at hs
    split at hs
    case h_1 hpc | h_2 hpc | h_3 hpc | h_5 hpc | h_6 hpc | h_7 hpc =>
      cases hs
      exact hquiet (by rw [hpc]; rfl) rfl rfl rfl rfl (by simp)
    case h_4 hpc =>
      split at hs
      · cases hs
        exact hquiet (by rw [hpc]; rfl) rfl rfl rfl rfl (by simp)
      · cases hs
    case h_8 hpc =>
      split at hs
      · next hctx =>
        cases hs
        exact .leave (.inr hctx) rfl rfl (by simp)
      · cases hs
    case h_9 hpc =>
      split at hs <;> cases hs <;> exact .leave (.inl (by rw [hpc]; rfl)) rfl rfl (by simp)
    case h_10 hpc | h_11 hpc =>
      cases hs
      exact .leave (.inl (by rw [hpc]; rfl)) rfl rfl (by simp)
    case h_12 => cases hs

theorem MainDoes.signals (h : MainDoes b s t es) : signals es = [] := by
  cases h with
  | attach => rfl
  | goOn hpc hpc' hframe hes => rcases hes with rfl | rfl <;> rfl
  | leave hpc hpc' hloaded hes =>
    refine List.filterMap_eq_nil_iff.mpr fun e he => ?_
    rcases hes e he with rfl | rfl | rfl <;> rfl

end Main

/-! ## The handoff window -/

/-- The link and the pins of a loaded scheduler stay until the agent leaves. -/
structure Inv (tr : List Event) (s : Process) : Prop where
  beside : BesideOk tr s.beside
  leaving : s.agent.pc.leaving = true → s.beside.cancelled = true
  attached : (∃ time, .attached time ∈ tr) → s.agent.schedLoaded = true
  kept : s.agent.pc.leaving = false →
    s.agent.pinsRemoved = false ∧ (s.agent.schedLoaded = true → s.agent.link = true)

/-- What happens beside the main goroutine: a cancelled context stays so, the
cache syncs in one kind of step, and the events are signals. -/
theorem otherStep_keeps {b b' : Beside} {a : Other} {es : List Event}
    (hs : otherStep b a = some (b', es)) :
    (b.cancelled = true → b'.cancelled = true) ∧
      (b'.hasSynced = true ↔ b.hasSynced = true ∨ a = .sync) ∧ ∀ e ∈ es, e.signal?.isSome := by
  cases a with
  | tick ns =>
    cases hs
    exact ⟨id, by simp, by simp⟩
  | signal sig =>
    cases hs
    exact ⟨id, by simp, by simp [Event.signal?]⟩
  | sync =>
    cases hs
    exact ⟨id, by simp, by simp⟩
  | receive | second =>
    simp only [otherStep] at hs
    split at hs
    · cases hs
      exact ⟨id, by simp, by simp⟩
    · cases hs
  | timer =>
    simp only [otherStep] at hs
    split at hs
    · split at hs
      · cases hs
        exact ⟨id, by simp, by simp⟩
      · cases hs
    · cases hs
  | cancel =>
    simp only [otherStep] at hs
    split at hs
    · cases hs
      exact ⟨fun _ => rfl, by simp, by simp⟩
    · cases hs

theorem Inv.step {tr es : List Event} {s t : Process} {a : Action} (h : Inv tr s)
    (hs : Lifecycle.step s a = some (t, es)) : Inv (tr ++ es) t := by
  cases a with
  | other a =>
    obtain ⟨⟨b, es'⟩, hb, heq⟩ := Option.map_eq_some_iff.mp hs
    cases heq
    obtain ⟨hcancelled, -, hsignals⟩ := otherStep_keeps hb
    refine ⟨h.beside.step hb, fun hpc => hcancelled (h.leaving hpc), ?_, h.kept⟩
    intro hatt
    obtain ⟨time, hmem⟩ := hatt
    rcases List.mem_append.mp hmem with hmem | hmem
    · exact h.attached ⟨time, hmem⟩
    · cases hsignals _ hmem
  | main a =>
    obtain ⟨⟨m, es'⟩, hm, heq⟩ := Option.map_eq_some_iff.mp hs
    cases heq
    have hd := mainStep_does hm
    have hbeside := h.beside.of_main hd.signals
    cases hd with
    | attach hpc =>
      have hkept := h.kept (by rw [hpc]; rfl)
      exact ⟨hbeside, by simp [Pc.leaving], fun _ => rfl, fun _ => ⟨hkept.1, fun _ => rfl⟩⟩
    | goOn hpc hpc' hframe hes =>
      obtain ⟨hloaded, hlink, hpins⟩ := hframe
      refine ⟨hbeside, by simp [hpc'], fun hatt => ?_, fun _ => ?_⟩
      · rw [hloaded]
        refine h.attached ?_
        rcases hes with rfl | rfl <;> simpa using hatt
      · rw [hloaded, hlink, hpins]
        exact h.kept hpc
    | leave hpc hpc' hloaded hes =>
      refine ⟨hbeside, fun _ => hpc.elim h.leaving id, fun hatt => ?_, by simp [hpc']⟩
      rw [hloaded]
      obtain ⟨time, hmem⟩ := hatt
      rcases List.mem_append.mp hmem with hmem | hmem
      · exact h.attached ⟨time, hmem⟩
      · rcases hes _ hmem with heq | heq | heq <;> cases heq

theorem start_inv : Inv [] start where
  beside := ⟨by simp [signals], rfl, by simp [start]⟩
  leaving := by simp [start, Pc.leaving]
  attached := by simp
  kept := by simp [start]

/-- The main goroutine's steps. -/
def actor : Action → Option Unit
  | .other _ => none
  | .main _ => some ()

/-- The steps to the end, at most, once the context is cancelled. -/
def Pc.toGo : Pc → Nat
  | .newAgent | .pause _ => 14
  | .load => 13
  | .readOps => 12
  | .openMaps => 11
  | .setGauge => 10
  | .startResolver => 9
  | .waitForCacheSync => 8
  | .startWatcher => 7
  | .startMetricsServer => 6
  | .storeReady => 5
  | .serve => 4
  | .shutdown => 3
  | .removePins => 2
  | .closeLink => 1
  | .exited _ => 0

structure Ahead (s : Process) (n : Nat) (i : Unit) : Prop where
  cancelled : s.beside.cancelled = true
  synced : s.beside.hasSynced = true
  pos : 0 < n
  steps : s.agent.pc.toGo = n

section Leads

variable {b : Beside} {s t : AgentRun} {es : List Event}

theorem mainStep_enabled (hc : b.cancelled = true) (hsync : b.hasSynced = true)
    (hpc : 0 < s.pc.toGo) : ∃ a, (mainStep b s a).isSome := by
  cases h : s.pc with
  | newAgent => exact ⟨.newAgent true, by simp [mainStep, h]⟩
  | load => exact ⟨.load true, by simp [mainStep, h]⟩
  | readOps => exact ⟨.readOps false, by simp [mainStep, h]⟩
  | pause wake => exact ⟨.ctxDone, by simp [mainStep, h, hc]⟩
  | exited code =>
    rw [h] at hpc
    exact absurd hpc (Nat.lt_irrefl 0)
  | shutdown =>
    refine ⟨.proceed, ?_⟩
    simp only [mainStep, h]
    split <;> rfl
  | _ => exact ⟨.proceed, by simp [mainStep, h, hc, hsync]⟩

/-- Every step of the main goroutine then leads nearer to the end. -/
theorem mainStep_nearer {a : Main} (hc : b.cancelled = true)
    (hs : mainStep b s a = some (t, es)) :
    (∃ code, .exited code ∈ es) ∨ 0 < t.pc.toGo ∧ t.pc.toGo < s.pc.toGo := by
  cases a with
  | newAgent ok | load ok | readOps contended =>
    simp only [mainStep] at hs
    split at hs
    · next hpc =>
      split at hs <;> cases hs <;> simp_all [Pc.toGo]
    · cases hs
  | retry =>
    simp only [mainStep] at hs
    split at hs
    · next wake hpc =>
      split at hs
      · cases hs
        simp [Pc.toGo, hpc]
      · cases hs
    · cases hs
  | ctxDone =>
    simp only [mainStep, hc, if_true] at hs
    split at hs
    · next wake hpc =>
      cases hs
      simp [Pc.toGo, hpc]
    · cases hs
  | fallBack =>
    simp only [mainStep] at hs
    split at hs
    · next hpc =>
      cases hs
      simp [Pc.toGo, hpc]
    · cases hs
  | stopped =>
    simp only [mainStep] at hs
    split at hs
    · next hstop =>
      cases hs
      simp [Pc.toGo, hstop.1]
    · cases hs
  | proceed =>
    simp only [mainStep] at hs
    split at hs
    case h_12 => cases hs
    case h_4 hpc | h_8 hpc | h_9 hpc =>
      split at hs <;> cases hs <;> simp [Pc.toGo, hpc]
    all_goals
      next hpc =>
      cases hs
      simp [Pc.toGo, hpc]

end Leads

theorem leads : Leads step actor (fun e => ∃ code, e = Event.exited code) Ahead where
  pos := fun h => h.pos
  enabled := by
    intro s n i h
    obtain ⟨a, ha⟩ := mainStep_enabled h.cancelled h.synced (h.steps ▸ h.pos)
    exact ⟨.main a, rfl, by simpa [step] using ha⟩
  step := by
    intro s n i a t es h hs
    cases a with
    | other a =>
      obtain ⟨⟨b, es'⟩, hb, heq⟩ := Option.map_eq_some_iff.mp hs
      cases heq
      obtain ⟨hcancelled, hsynced, -⟩ := otherStep_keeps hb
      exact .inr (.inr ⟨by simp [actor],
        ⟨hcancelled h.cancelled, hsynced.mpr (.inl h.synced), h.pos, h.steps⟩⟩)
    | main a =>
      obtain ⟨⟨m, es'⟩, hm, heq⟩ := Option.map_eq_some_iff.mp hs
      cases heq
      rcases mainStep_nearer h.cancelled hm with ⟨code, hexit⟩ | ⟨hpos, hlt⟩
      · exact .inl ⟨_, hexit, code, rfl⟩
      · exact .inr (.inl ⟨_, h.steps ▸ hlt, (), ⟨h.cancelled, h.synced, hpos, rfl⟩⟩)

/-- From any state in which the context is cancelled and the informer's cache has
synced, the agent exits within 14 fair rounds, whatever its calls return. -/
theorem exits_once_cancelled {s t : Process} {tr : List Event}
    (hc : s.beside.cancelled = true) (hsync : s.beside.hasSynced = true)
    (hpc : ∀ code, s.agent.pc ≠ .exited code) {rounds : List (List Action)}
    (hlen : 14 ≤ rounds.length) (hfair : Rounds step actor s rounds)
    (hexec : exec step s rounds.flatten = some (t, tr)) : ∃ code, .exited code ∈ tr := by
  have hle : s.agent.pc.toGo ≤ 14 := by cases s.agent.pc <;> simp [Pc.toGo]
  have hpos : 0 < s.agent.pc.toGo := by
    cases h : s.agent.pc with
    | exited code => exact absurd h (hpc code)
    | _ => simp [Pc.toGo]
  have hahead : Ahead s s.agent.pc.toGo () := ⟨hc, hsync, hpos, rfl⟩
  obtain ⟨e, he, code, rfl⟩ := leads.rounds hahead (Nat.le_trans hle hlen) hfair hexec
  exact ⟨code, he⟩

/-- A round in which the main goroutine takes a step. -/
theorem rounds_main {s t : Process} {a : Main} {es : List Event} {rounds : List (List Action)}
    (hs : step s (.main a) = some (t, es)) (h : Rounds step actor t rounds) :
    Rounds step actor s ([.main a] :: rounds) := by
  refine ⟨fun i => .inr (.inl rfl), fun u tr hu => ?_⟩
  obtain ⟨v, es', tr', hv, hrest, -⟩ := exec_cons_eq_some hu
  rw [hs] at hv
  cases hv
  cases hrest
  exact h

/-- Rounds after the end. -/
theorem rounds_exited {s : Process} {code : Nat} (hpc : s.agent.pc = .exited code) (n : Nat) :
    Rounds step actor s (List.replicate n []) := by
  induction n with
  | zero => trivial
  | succ n ih =>
    refine ⟨fun i hen => ?_, fun u tr hu => ?_⟩
    · obtain ⟨a, ha, hsome⟩ := hen
      cases a with
      | other a => cases ha
      | main a => cases a <;> simp [step, mainStep, hpc] at hsome
    · cases hu
      exact ih

/-- The context is cancelled while the agent serves. -/
def interrupted : Process where
  beside := ⟨0, [], .done, true, true⟩
  agent := ⟨.serve, true, true, false, some true, true, false⟩

theorem exits_once_cancelled_serving :
    ∃ (t : Process) (tr : List Event),
      exec step interrupted (List.replicate 4 (.main .proceed)) = some (t, tr) ∧
      t.agent.link = false ∧ ∃ code, .exited code ∈ tr := by
  have hrounds : Rounds step actor interrupted
      (List.replicate 4 [.main .proceed] ++ List.replicate 10 []) :=
    rounds_main rfl (rounds_main rfl (rounds_main rfl (rounds_main rfl (rounds_exited rfl 10))))
  exact ⟨_, _, rfl, rfl, exits_once_cancelled rfl rfl (by simp [interrupted]) (by decide) hrounds
    rfl⟩

/-! ## An informer that does not sync -/

/-- The stages up to the wait for the informer's cache. -/
def Pc.early : Pc → Bool
  | .newAgent | .load | .readOps | .pause _ | .openMaps | .setGauge | .startResolver
  | .waitForCacheSync | .exited 1 => true
  | _ => false

/-- The dynamic client is there, and the cache does not sync. -/
def Unsynced (_ : Process) (a : Action) : Prop :=
  match a with
  | .other .sync | .main .fallBack => False
  | _ => True

instance (s : Process) (a : Action) : Decidable (Unsynced s a) := by
  unfold Unsynced
  split <;> infer_instance

/-- Before the wait is over `Run` does not close the channel that would end it. -/
theorem mainStep_early {b : Beside} {s t : AgentRun} {a : Main} {es : List Event}
    (hsync : b.hasSynced = false) (hstop : s.stopClosed = false) (hpc : s.pc.early = true)
    (ha : a ≠ .fallBack) (hs : mainStep b s a = some (t, es)) :
    t.pc.early = true ∧ t.stopClosed = false ∧ t.ready = s.ready ∧ .exited 0 ∉ es := by
  cases a with
  | newAgent ok | load ok | readOps contended =>
    simp only [mainStep] at hs
    split at hs
    · split at hs <;> cases hs <;> simp [Pc.early, hstop]
    · cases hs
  | retry | ctxDone =>
    simp only [mainStep] at hs
    split at hs
    · split at hs
      · cases hs
        simp [Pc.early, hstop]
      · cases hs
    · cases hs
  | fallBack => exact absurd rfl ha
  | stopped => simp [mainStep, hstop] at hs
  | proceed =>
    cases h : s.pc with
    | openMaps | setGauge | startResolver =>
      simp only [mainStep, h] at hs
      cases hs
      simp [Pc.early, hstop]
    | newAgent | load | readOps | pause _ | exited _ | waitForCacheSync =>
      simp [mainStep, h, hsync] at hs
    | _ => simp [h, Pc.early] at hpc

theorem leaving_of_early {pc : Pc} (h : pc.early = true) : pc.leaving = false := by
  cases pc with
  | exited code =>
    unfold Pc.early at h
    split at h <;> simp_all [Pc.leaving]
  | shutdown | removePins | closeLink => cases h
  | _ => rfl

/-- The agent has not come further than the wait. -/
structure Stuck (tr : List Event) (s : Process) : Prop where
  unsynced : s.beside.hasSynced = false
  stopOpen : s.agent.stopClosed = false
  early : s.agent.pc.early = true
  ready : s.agent.ready = false
  running : .exited 0 ∉ tr

theorem Stuck.step {tr es : List Event} {s t : Process} {a : Action} (h : Stuck tr s)
    (ha : Unsynced s a) (hs : Lifecycle.step s a = some (t, es)) : Stuck (tr ++ es) t := by
  obtain ⟨hsync, hstop, hpc, hready, hrunning⟩ := h
  cases a with
  | other a =>
    obtain ⟨⟨b, es'⟩, hb, heq⟩ := Option.map_eq_some_iff.mp hs
    cases heq
    obtain ⟨-, hsynced, hsignals⟩ := otherStep_keeps hb
    have hevents : Event.exited 0 ∉ es' := fun hmem => by cases hsignals _ hmem
    refine ⟨Bool.eq_false_iff.mpr fun htrue => ?_, hstop, hpc, hready,
      by simp [hrunning, hevents]⟩
    rcases hsynced.mp htrue with hold | rfl
    · rw [hsync] at hold
      cases hold
    · exact ha
  | main a =>
    obtain ⟨⟨m, es'⟩, hm, heq⟩ := Option.map_eq_some_iff.mp hs
    cases heq
    obtain ⟨hpc', hstop', hready', hevents⟩ :=
      mainStep_early hsync hstop hpc (by rintro rfl; exact ha) hm
    exact ⟨hsync, hstop', hpc', hready'.trans hready, by simp [hrunning, hevents]⟩

/-- `Run` waits in `Resolver.Start` on a channel that it closes later itself:
while the informer's cache has not synced, the agent is not ready, does not exit
and does not close the link, whatever signals it gets. -/
theorem unsynced_never_exits {tr : List Event} {s : Process}
    (h : Run step Unsynced start tr s) :
    s.agent.ready = false ∧ .exited 0 ∉ tr ∧
      ((∃ time, .attached time ∈ tr) → s.agent.link = true) := by
  have hstuck : Stuck tr s := h.invariant (I := Stuck) ⟨rfl, rfl, rfl, rfl, by simp⟩
    fun _ _ _ _ _ ih ha hs => ih.step ha hs
  have hinv : Inv tr s := h.invariant (I := Inv) start_inv
    fun _ _ _ _ _ ih _ hs => ih.step hs
  have hpc : s.agent.pc.leaving = false := leaving_of_early hstuck.early
  exact ⟨hstuck.ready, hstuck.running, fun hatt => (hinv.kept hpc).2 (hinv.attached hatt)⟩

/-- The scheduler is attached, the agent waits, and two signals come. -/
def waiting : List Action :=
  [.main (.newAgent true), .main (.load true), .main .proceed, .main .proceed, .main .proceed,
    .other (.signal .sigterm), .other .receive, .other (.signal .sigterm), .other .second,
    .other .cancel, .other (.tick 60000000000)]

theorem unsynced_never_exits_waiting :
    ∃ (tr : List Event) (s : Process), exec step start waiting = some (s, tr) ∧
      s.beside.cancelled = true ∧ s.agent.ready = false ∧ s.agent.link = true := by
  have h : Run step Unsynced start _ _ := Run.of_isSome waiting (by decide) (by decide)
  obtain ⟨hready, -, hlink⟩ := unsynced_never_exits h
  exact ⟨_, _, rfl, rfl, hready, hlink ⟨0, by decide⟩⟩

end K8sSched.Agent.Lifecycle
