import K8sSched.Bpf.Ops
import K8sSched.Lib.Runs
import Mathlib.Data.Finset.Insert

/-! # Several CPUs under the scheduler

The callbacks of `bpf/k8s_sched.bpf.c` on any number of CPUs, which share the
clock, the maps, the tasks and `K8S_DSQ_ID`. A CPU is in one callback at a time,
and the callbacks of different CPUs interleave at their accesses to what is
shared: `k8s_enqueue` looks up the parameters, reads the clock and inserts in
three steps, and `k8s_running` reads the clock in one step and writes it in
another.

Assumed of the kernel, besides what is assumed on one CPU: a queue operation is
atomic, `scx_dsq_move_to_local` passes over tasks that may not run on the CPU,
and `scx_bpf_select_cpu_dfl` finds a CPU idle only if it has no task of this
scheduler and is in no callback. -/

namespace K8sSched.Bpf.Smp
open K8sSched.Bpf.Params K8sSched.Bpf.Ops K8sSched.Lib.WrapClock K8sSched.Lib.FifoQueue

/-- Where a CPU is in a callback, with what the callback has read so far. -/
inductive Pc (τ : Type) where
  | outside
  /-- In `k8s_enqueue`, before `lookup_task_params`; `pick` says that the CPU
  takes its next task afterwards. -/
  | enqueue (p : τ) (pick : Bool)
  /-- Before the read of `vtime_now`. -/
  | clamp (p : τ) (found : Bool) (tp : TaskParams) (pick : Bool)
  /-- Before `scx_dsq_insert_vtime`. -/
  | insert (p : τ) (found : Bool) (tp : TaskParams) (now : U64) (pick : Bool)
  /-- About to take the head of the local queue. -/
  | pick
  /-- In `k8s_running`, before the read of `vtime_now`. -/
  | running (p : τ)
  /-- Before the write of `vtime_now`. -/
  | store (vtime : U64)
  deriving DecidableEq

/-- The shared state, and what each CPU has of its own. -/
@[ext]
structure System (κ τ : Type) where
  vtimeNow : U64
  maps : ParamMaps
  stats : κ → SchedStats
  task : τ → Task
  /-- The CPUs a task may run on. -/
  allowed : τ → κ → Bool
  scx : τ → ScxEntity U64
  dsq : List τ
  localDsq : κ → List τ
  enabled : Finset τ
  asleep : Finset τ
  curr : κ → Option τ
  /-- For how long the task of a CPU has been there. -/
  ran : κ → Nat
  pc : κ → Pc τ

inductive Event (κ τ : Type) where
  | enabled (p : τ) (vtime : U64)
  /-- `k8s_enqueue` on a CPU put a task into `K8S_DSQ_ID`. -/
  | inserted (c : κ) (p : τ) (found : Bool) (slice vtime : U64)
  /-- `k8s_select_cpu` on a CPU put a task into the local queue of another. -/
  | direct (c target : κ) (p : τ) (slice : U64)
  | moved (c : κ) (p : τ)
  | ran (c : κ) (p : τ) (ns : Nat)
  | stopped (c : κ) (p : τ) (charge : U64)
  | refilled (c : κ) (p : τ)
  deriving DecidableEq

/-- What a CPU does next. -/
inductive Action (κ τ : Type) where
  | enable (c : κ) (p : τ)
  /-- A sleeping task is woken by the CPU; `idle` is the CPU found for it. -/
  | wake (c : κ) (p : τ) (idle : Option κ)
  /-- The CPU, without a task of this scheduler, looks for one. -/
  | balance (c : κ)
  | run (c : κ) (ns : Nat)
  | sleep (c : κ)
  | preempt (c : κ)
  | expire (c : κ)
  /-- The callback the CPU is in goes on. -/
  | proceed (c : κ)
  | setMaps (maps : ParamMaps)

variable {κ τ : Type} [DecidableEq κ] [DecidableEq τ]

/-- What a callback on the CPU `c` sees, with the local queue of `q`. -/
def System.on (s : System κ τ) (c q : κ) : Sched U64 τ where
  vtimeNow := s.vtimeNow
  maps := s.maps
  stats := s.stats c
  task := s.task
  scx := s.scx
  dsq := s.dsq
  localDsq := s.localDsq q

/-- What such a callback leaves; the clock is written apart. -/
def System.put (s : System κ τ) (c q : κ) (v : Sched U64 τ) : System κ τ :=
  { s with
    stats := Function.update s.stats c v.stats
    scx := v.scx
    dsq := v.dsq
    localDsq := Function.update s.localDsq q v.localDsq }

def System.goto (s : System κ τ) (c : κ) (pc : Pc τ) : System κ τ :=
  { s with pc := Function.update s.pc c pc }

/-- The task of the CPU leaves it. -/
def System.leave (s : System κ τ) (c : κ) : System κ τ :=
  { s with curr := Function.update s.curr c none }

def System.setSlice (s : System κ τ) (p : τ) (slice : U64) : System κ τ :=
  { s with scx := Function.update s.scx p { s.scx p with slice := slice } }

def System.params (s : System κ τ) (p : τ) : TaskParams := (lookupTaskParams s.maps (s.task p)).2

def System.sliceOf (s : System κ τ) (p : τ) : U64 := taskSlice (s.params p)

/-! ## The callbacks in steps -/

/-- The end of `k8s_enqueue`, from what it has read. -/
def enqueueInsert (s : Sched U64 τ) (p : τ) (found : Bool) (tp : TaskParams) (now : U64) :
    Sched U64 τ :=
  let slice := taskSlice tp
  let s' := scxDsqInsertVtime s p slice (clampVtime now (s.scx p).dsqVtime)
  { s' with stats := { s'.stats with
      enqueues := s'.stats.enqueues + 1
      budgetCapped := if slice < defaultSliceNs then s'.stats.budgetCapped + 1
        else s'.stats.budgetCapped
      defaults := if !found then s'.stats.defaults + 1 else s'.stats.defaults } }

/-- Without interruption it is `k8s_enqueue`. -/
theorem k8sEnqueue_eq (s : Sched U64 τ) (p : τ) :
    k8sEnqueue s p = enqueueInsert s p (lookupTaskParams s.maps (s.task p)).1
      (lookupTaskParams s.maps (s.task p)).2 s.vtimeNow := rfl

/-- The first in `K8S_DSQ_ID` of the tasks that may run on the CPU. -/
def System.lowestOn (s : System κ τ) (c : κ) : Option τ :=
  lowest (fun p q => VClock.before (s.scx p).dsqVtime (s.scx q).dsqVtime)
    (s.dsq.filter fun p => s.allowed p c)

def System.moveTo (s : System κ τ) (c : κ) (p : τ) : System κ τ :=
  { s with dsq := s.dsq.erase p
           localDsq := Function.update s.localDsq c (s.localDsq c ++ [p]) }

/-- `scx_dsq_move_to_local(K8S_DSQ_ID)` on the CPU. -/
def k8sDispatch (s : System κ τ) (c : κ) : System κ τ × List (Event κ τ) :=
  match s.lowestOn c with
  | none => (s, [])
  | some p => (s.moveTo c p, [.moved c p])

/-- `k8s_dispatch` is called when the local queue is empty. -/
def balance (s : System κ τ) (c : κ) : System κ τ × List (Event κ τ) :=
  match s.localDsq c with
  | [] => k8sDispatch s c
  | _ :: _ => (s, [])

def chargeOf (s : System κ τ) (p : τ) : U64 := stoppingCharge (s.params p) (s.scx p).slice

/-- The task of the CPU leaves it and is charged. -/
def stop (s : System κ τ) (c : κ) (p : τ) : System κ τ :=
  (s.put c c (k8sStopping (s.on c c) p)).leave c

/-- The rest of the callback a CPU is in. -/
def proceed (s : System κ τ) (c : κ) : Option (System κ τ × List (Event κ τ)) :=
  match s.pc c with
  | .outside => none
  | .enqueue p pick =>
    some (s.goto c (.clamp p (lookupTaskParams s.maps (s.task p)).1
      (lookupTaskParams s.maps (s.task p)).2 pick), [])
  | .clamp p found tp pick => some (s.goto c (.insert p found tp s.vtimeNow pick), [])
  | .insert p found tp now pick =>
    some ((s.put c c (enqueueInsert (s.on c c) p found tp now)).goto c
        (if pick then .pick else .outside),
      [.inserted c p found (taskSlice tp) (clampVtime now (s.scx p).dsqVtime)])
  | .pick =>
    match s.localDsq c with
    | [] => none
    | p :: rest =>
      some ({ s.goto c (.running p) with
        localDsq := Function.update s.localDsq c rest
        curr := Function.update s.curr c (some p)
        ran := Function.update s.ran c 0 }, [])
  | .running p =>
    some (s.goto c (if VClock.before s.vtimeNow (s.scx p).dsqVtime
      then .store (s.scx p).dsqVtime else .outside), [])
  | .store vtime => some ({ s.goto c .outside with vtimeNow := vtime }, [])

def step (s : System κ τ) : Action κ τ → Option (System κ τ × List (Event κ τ))
  | .enable c p =>
    if s.pc c = .outside ∧ p ∉ s.enabled then
      some ({ s.put c c (k8sEnable (s.on c c) p) with
        enabled := insert p s.enabled, asleep := insert p s.asleep }, [.enabled p s.vtimeNow])
    else none
  | .wake c p none =>
    if s.pc c = .outside ∧ p ∈ s.asleep then
      some ({ s.goto c (.enqueue p false) with asleep := s.asleep.erase p }, [])
    else none
  | .wake c p (some t) =>
    if s.pc c = .outside ∧ p ∈ s.asleep ∧ s.pc t = .outside ∧ s.curr t = none ∧ s.allowed p t then
      -- a task inserted by `k8s_select_cpu` is not enqueued again
      some ({ s.put c t (k8sSelectCpu (s.on c t) p true) with asleep := s.asleep.erase p },
        [.direct c t p (s.sliceOf p)])
    else none
  | .balance c =>
    if s.pc c = .outside ∧ s.curr c = none ∧ (balance s c).1.localDsq c ≠ [] then
      some ((balance s c).1.goto c .pick, (balance s c).2)
    else none
  | .run c ns =>
    match s.pc c, s.curr c with
    | .outside, some p =>
      some ({ s.setSlice p (BitVec.ofNat 64 ((s.scx p).slice.toNat - ns)) with
        ran := Function.update s.ran c (s.ran c + ns) }, [.ran c p ns])
    | _, _ => none
  | .sleep c =>
    match s.pc c, s.curr c with
    | .outside, some p =>
      some ({ stop s c p with asleep := insert p s.asleep }, [.stopped c p (chargeOf s p)])
    | _, _ => none
  | .preempt c =>
    match s.pc c, s.curr c with
    | .outside, some p =>
      if (s.scx p).slice ≠ 0 then
        some ({ stop s c p with localDsq := Function.update s.localDsq c (p :: s.localDsq c) },
          [.stopped c p (chargeOf s p)])
      else some ((stop s c p).goto c (.enqueue p false), [.stopped c p (chargeOf s p)])
    | _, _ => none
  | .expire c =>
    match s.pc c, s.curr c with
    | .outside, some p =>
      if (s.scx p).slice ≠ 0 then none
      else if (balance s c).1.localDsq c = [] then
        some (s.setSlice p scxSliceDfl, [.refilled c p])
      else
        some ((stop (balance s c).1 c p).goto c (.enqueue p true),
          (balance s c).2 ++ [.stopped c p (chargeOf s p)])
    | _, _ => none
  | .proceed c => proceed s c
  | .setMaps maps => some ({ s with maps := maps }, [])

/-- The scheduler as loaded, with no task enabled yet. -/
def boot (maps : ParamMaps) (task : τ → Task) (allowed : τ → κ → Bool) : System κ τ where
  vtimeNow := 0
  maps := maps
  stats := fun _ => ⟨0, 0, 0, 0⟩
  task := task
  allowed := allowed
  scx := fun _ => ⟨0, 0⟩
  dsq := []
  localDsq := fun _ => []
  enabled := ∅
  asleep := ∅
  curr := fun _ => none
  ran := fun _ => 0
  pc := fun _ => .outside

/-! ## What a step can do -/

inductive Does (s : System κ τ) : Action κ τ → System κ τ → List (Event κ τ) → Prop
  | enable {c : κ} {p : τ} (hpc : s.pc c = .outside) (hp : p ∉ s.enabled) :
      Does s (.enable c p) { s.put c c (k8sEnable (s.on c c) p) with
        enabled := insert p s.enabled, asleep := insert p s.asleep } [.enabled p s.vtimeNow]
  | wakeQueue {c : κ} {p : τ} (hpc : s.pc c = .outside) (hp : p ∈ s.asleep) :
      Does s (.wake c p none) { s.goto c (.enqueue p false) with asleep := s.asleep.erase p } []
  | wakeLocal {c t : κ} {p : τ} (hpc : s.pc c = .outside) (hp : p ∈ s.asleep)
      (hpt : s.pc t = .outside) (hidle : s.curr t = none) (hallow : s.allowed p t) :
      Does s (.wake c p (some t))
        { s.put c t (k8sSelectCpu (s.on c t) p true) with asleep := s.asleep.erase p }
        [.direct c t p (s.sliceOf p)]
  | balanceLocal {c : κ} (hpc : s.pc c = .outside) (hidle : s.curr c = none)
      (hl : s.localDsq c ≠ []) : Does s (.balance c) (s.goto c .pick) []
  | balanceMoved {c : κ} {p : τ} (hpc : s.pc c = .outside) (hidle : s.curr c = none)
      (hl : s.localDsq c = []) (hq : s.lowestOn c = some p) :
      Does s (.balance c) ((s.moveTo c p).goto c .pick) [.moved c p]
  | run {c : κ} {p : τ} {ns : Nat} (hpc : s.pc c = .outside) (hc : s.curr c = some p) :
      Does s (.run c ns) { s.setSlice p (BitVec.ofNat 64 ((s.scx p).slice.toNat - ns)) with
        ran := Function.update s.ran c (s.ran c + ns) } [.ran c p ns]
  | sleep {c : κ} {p : τ} (hpc : s.pc c = .outside) (hc : s.curr c = some p) :
      Does s (.sleep c) { stop s c p with asleep := insert p s.asleep }
        [.stopped c p (chargeOf s p)]
  | preemptKeep {c : κ} {p : τ} (hpc : s.pc c = .outside) (hc : s.curr c = some p)
      (hs : (s.scx p).slice ≠ 0) :
      Does s (.preempt c)
        { stop s c p with localDsq := Function.update s.localDsq c (p :: s.localDsq c) }
        [.stopped c p (chargeOf s p)]
  | preemptQueue {c : κ} {p : τ} (hpc : s.pc c = .outside) (hc : s.curr c = some p)
      (hs : (s.scx p).slice = 0) :
      Does s (.preempt c) ((stop s c p).goto c (.enqueue p false)) [.stopped c p (chargeOf s p)]
  | refill {c : κ} {p : τ} (hpc : s.pc c = .outside) (hc : s.curr c = some p)
      (hs : (s.scx p).slice = 0) (hl : s.localDsq c = []) (hq : s.lowestOn c = none) :
      Does s (.expire c) (s.setSlice p scxSliceDfl) [.refilled c p]
  | expireLocal {c : κ} {p : τ} (hpc : s.pc c = .outside) (hc : s.curr c = some p)
      (hs : (s.scx p).slice = 0) (hl : s.localDsq c ≠ []) :
      Does s (.expire c) ((stop s c p).goto c (.enqueue p true)) [.stopped c p (chargeOf s p)]
  | expireMoved {c : κ} {p q : τ} (hpc : s.pc c = .outside) (hc : s.curr c = some p)
      (hs : (s.scx p).slice = 0) (hl : s.localDsq c = []) (hq : s.lowestOn c = some q) :
      Does s (.expire c) ((stop (s.moveTo c q) c p).goto c (.enqueue p true))
        [.moved c q, .stopped c p (chargeOf s p)]
  | lookup {c : κ} {p : τ} {pick : Bool} (hpc : s.pc c = .enqueue p pick) :
      Does s (.proceed c) (s.goto c (.clamp p (lookupTaskParams s.maps (s.task p)).1
        (lookupTaskParams s.maps (s.task p)).2 pick)) []
  | clamp {c : κ} {p : τ} {found pick : Bool} {tp : TaskParams}
      (hpc : s.pc c = .clamp p found tp pick) :
      Does s (.proceed c) (s.goto c (.insert p found tp s.vtimeNow pick)) []
  | insert {c : κ} {p : τ} {found pick : Bool} {tp : TaskParams} {now : U64}
      (hpc : s.pc c = .insert p found tp now pick) :
      Does s (.proceed c) ((s.put c c (enqueueInsert (s.on c c) p found tp now)).goto c
          (if pick then .pick else .outside))
        [.inserted c p found (taskSlice tp) (clampVtime now (s.scx p).dsqVtime)]
  | pick {c : κ} {p : τ} {rest : List τ} (hpc : s.pc c = .pick) (hl : s.localDsq c = p :: rest) :
      Does s (.proceed c) { s.goto c (.running p) with
        localDsq := Function.update s.localDsq c rest
        curr := Function.update s.curr c (some p)
        ran := Function.update s.ran c 0 } []
  | ahead {c : κ} {p : τ} (hpc : s.pc c = .running p)
      (hb : VClock.before s.vtimeNow (s.scx p).dsqVtime = true) :
      Does s (.proceed c) (s.goto c (.store (s.scx p).dsqVtime)) []
  | behind {c : κ} {p : τ} (hpc : s.pc c = .running p)
      (hb : VClock.before s.vtimeNow (s.scx p).dsqVtime = false) :
      Does s (.proceed c) (s.goto c .outside) []
  | store {c : κ} {vtime : U64} (hpc : s.pc c = .store vtime) :
      Does s (.proceed c) { s.goto c .outside with vtimeNow := vtime } []
  | setMaps {maps : ParamMaps} : Does s (.setMaps maps) { s with maps := maps } []

section StepDoes

variable {s t : System κ τ} {c : κ} {p : τ} {es : List (Event κ τ)}

theorem balance_of_local (h : s.localDsq c ≠ []) : balance s c = (s, []) := by
  unfold balance
  split
  · next hnil => exact absurd hnil h
  · rfl

theorem balance_of_none (h : s.localDsq c = []) (hq : s.lowestOn c = none) :
    balance s c = (s, []) := by
  simp [balance, h, k8sDispatch, hq]

theorem balance_of_some (h : s.localDsq c = []) (hq : s.lowestOn c = some p) :
    balance s c = (s.moveTo c p, [.moved c p]) := by
  simp [balance, h, k8sDispatch, hq]

theorem balance_does (h : step s (.balance c) = some (t, es)) : Does s (.balance c) t es := by
  simp only [step] at h
  split at h
  · next hg =>
    obtain ⟨hpc, hidle, hne⟩ := hg
    by_cases hl : s.localDsq c = []
    · cases hq : s.lowestOn c with
      | none =>
        rw [balance_of_none hl hq] at hne
        exact absurd hl hne
      | some p =>
        rw [balance_of_some hl hq] at h
        cases h
        exact .balanceMoved hpc hidle hl hq
    · rw [balance_of_local hl] at h
      cases h
      exact .balanceLocal hpc hidle hl
  · cases h

theorem expire_does (h : step s (.expire c) = some (t, es)) : Does s (.expire c) t es := by
  simp only [step] at h
  split at h
  · next p hpc hc =>
    split at h
    · cases h
    · next hs =>
      have hs := not_not.mp hs
      by_cases hl : s.localDsq c = []
      · cases hq : s.lowestOn c with
        | none =>
          rw [balance_of_none hl hq, if_pos hl] at h
          cases h
          exact .refill hpc hc hs hl hq
        | some q =>
          rw [balance_of_some hl hq, if_neg (by simp [System.moveTo])] at h
          cases h
          exact .expireMoved hpc hc hs hl hq
      · rw [balance_of_local hl, if_neg hl] at h
        cases h
        exact .expireLocal hpc hc hs hl
  · cases h

theorem proceed_does (h : step s (.proceed c) = some (t, es)) : Does s (.proceed c) t es := by
  simp only [step, proceed] at h
  split at h
  · cases h
  · next p pick hpc => cases h; exact .lookup hpc
  · next p found tp pick hpc => cases h; exact .clamp hpc
  · next p found tp now pick hpc => cases h; exact .insert hpc
  · next hpc =>
    split at h
    · cases h
    · next p rest hl => cases h; exact .pick hpc hl
  · next p hpc =>
    cases hb : VClock.before s.vtimeNow (s.scx p).dsqVtime with
    | true =>
      rw [hb] at h
      cases h
      exact .ahead hpc hb
    | false =>
      rw [hb] at h
      cases h
      exact .behind hpc hb
  · next vtime hpc => cases h; exact .store hpc

end StepDoes

theorem step_does {s t : System κ τ} {a : Action κ τ} {es : List (Event κ τ)}
    (h : step s a = some (t, es)) : Does s a t es := by
  cases a with
  | enable c p =>
    simp only [step] at h
    split at h
    · next hg => cases h; exact .enable hg.1 hg.2
    · cases h
  | wake c p idle =>
    cases idle with
    | none =>
      simp only [step] at h
      split at h
      · next hg => cases h; exact .wakeQueue hg.1 hg.2
      · cases h
    | some t =>
      simp only [step] at h
      split at h
      · next hg =>
        obtain ⟨hpc, hp, hpt, hidle, hallow⟩ := hg
        cases h
        exact .wakeLocal hpc hp hpt hidle hallow
      · cases h
  | balance c => exact balance_does h
  | run c ns =>
    simp only [step] at h
    split at h
    · next p hpc hc => cases h; exact .run hpc hc
    · cases h
  | sleep c =>
    simp only [step] at h
    split at h
    · next p hpc hc => cases h; exact .sleep hpc hc
    · cases h
  | preempt c =>
    simp only [step] at h
    split at h
    · next p hpc hc =>
      split at h
      · next hs => cases h; exact .preemptKeep hpc hc hs
      · next hs => cases h; exact .preemptQueue hpc hc (not_not.mp hs)
    · cases h
  | expire c => exact expire_does h
  | proceed c => exact proceed_does h
  | setMaps maps => cases h; exact .setMaps

/-- And each of these is a step. -/
theorem does_step {s t : System κ τ} {a : Action κ τ} {es : List (Event κ τ)}
    (h : Does s a t es) : step s a = some (t, es) := by
  cases h with
  | enable hpc hp => exact if_pos ⟨hpc, hp⟩
  | wakeQueue hpc hp => exact if_pos ⟨hpc, hp⟩
  | wakeLocal hpc hp hpt hidle hallow => exact if_pos ⟨hpc, hp, hpt, hidle, hallow⟩
  | balanceLocal hpc hidle hl => simp [step, hpc, hidle, balance_of_local hl, hl]
  | balanceMoved hpc hidle hl hq =>
    simp [step, hpc, hidle, balance_of_some hl hq, System.moveTo]
  | run hpc hc => simp [step, hpc, hc]
  | sleep hpc hc => simp [step, hpc, hc]
  | preemptKeep hpc hc hs =>
    simp only [step, hpc, hc]
    exact if_pos hs
  | preemptQueue hpc hc hs => simp [step, hpc, hc, hs]
  | refill hpc hc hs hl hq => simp [step, hpc, hc, hs, balance_of_none hl hq, hl]
  | expireLocal hpc hc hs hl => simp [step, hpc, hc, hs, balance_of_local hl, hl]
  | expireMoved hpc hc hs hl hq =>
    simp [step, hpc, hc, hs, balance_of_some hl hq, System.moveTo]
  | lookup hpc | clamp hpc | insert hpc | store hpc => simp [step, proceed, hpc]
  | pick hpc hl => simp [step, proceed, hpc, hl]
  | ahead hpc hb | behind hpc hb => simp [step, proceed, hpc, hb]
  | setMaps => rfl

end K8sSched.Bpf.Smp
