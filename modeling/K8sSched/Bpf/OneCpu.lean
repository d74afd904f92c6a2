import K8sSched.Bpf.Ops
import K8sSched.Lib.Runs
import Mathlib.Data.Finset.Insert

/-! # One CPU under the scheduler

The callbacks of `bpf/k8s_sched.bpf.c` in the order in which the sched_ext core
calls them on one CPU. Assumed of the kernel: an insert sets the slice, running
time is taken off it (never below zero); a task taken off the CPU with slice
left goes back to the head of the local queue and resumes without a new
`k8s_enqueue`; when the slice of the running task is used up and its CPU has no
other task, `k8s_dispatch` is called while that task is not queued, and if
nothing was moved the task stays on the CPU with the kernel's default slice and
no callback; otherwise `k8s_stopping` and `k8s_enqueue` of the old task come
before `k8s_running` of the new one. -/

namespace K8sSched.Bpf.OneCpu
open K8sSched.Bpf.Params K8sSched.Bpf.Ops K8sSched.Lib.WrapClock K8sSched.Lib.FifoQueue
open K8sSched.Lib.Runs

/-- What can be observed of a run. -/
inductive Event (V τ : Type) where
  /-- `k8s_enable` put a new task on the clock. -/
  | enabled (p : τ) (vtime : V)
  /-- `scx_dsq_move_to_local` took a task out of `K8S_DSQ_ID`. -/
  | moved (p : τ)
  /-- A task used the CPU. -/
  | ran (p : τ) (ns : Nat)
  /-- `k8s_stopping` charged a task. -/
  | stopped (p : τ) (charge : U64)
  /-- The kernel kept a task on the CPU and gave it its own default slice. -/
  | refilled (p : τ)
  deriving DecidableEq

/-- What can happen next. -/
inductive Action (τ : Type) where
  | enable (p : τ)
  /-- A sleeping task wakes up; `isIdle` is the answer of the default idle-CPU
  selection. -/
  | wake (p : τ) (isIdle : Bool)
  /-- The CPU, without a task of this scheduler, takes one. -/
  | pick
  | run (ns : Nat)
  /-- The running task blocks. -/
  | sleep
  /-- A task of a higher class takes the CPU. -/
  | preempt
  /-- The slice of the running task is used up. -/
  | expire
  /-- The agent rewrites the parameter maps. -/
  | setMaps (maps : ParamMaps)

/-- The scheduler's state and the CPU: the tasks under the scheduler, the task
on the CPU, and for how long it has been there since `k8s_running`. -/
structure Machine (V τ : Type) extends Sched V τ where
  enabled : Finset τ
  curr : Option τ
  ran : Nat

variable {V τ : Type} [VClock V] [DecidableEq τ]

/-- `k8s_dispatch` is called when the local queue is empty. -/
def balance (s : Sched V τ) : Sched V τ × List (Event V τ) :=
  match s.localDsq with
  | [] => (k8sDispatch s, s.lowestVtime.toList.map .moved)
  | _ :: _ => (s, [])

/-- The head of the local queue gets the CPU. -/
def switchTo (m : Machine V τ) (p : τ) (rest : List τ) : Machine V τ :=
  { m with toSched := k8sRunning { m.toSched with localDsq := rest } p, curr := some p, ran := 0 }

def setSlice (m : Machine V τ) (p : τ) (slice : U64) : Machine V τ :=
  { m with scx := Function.update m.scx p { m.scx p with slice := slice } }

/-- The charge of `k8s_stopping` in a given state. -/
def chargeOf (s : Sched V τ) (p : τ) : U64 := stoppingCharge (s.params p) (s.scx p).slice

/-- A running task off the CPU and back into `K8S_DSQ_ID`. -/
def requeue (s : Sched V τ) (p : τ) : Sched V τ := k8sEnqueue (k8sStopping s p) p

def step (m : Machine V τ) : Action τ → Option (Machine V τ × List (Event V τ))
  | .enable p =>
    if p ∈ m.enabled then none
    else some ({ m with toSched := k8sEnable m.toSched p, enabled := insert p m.enabled },
      [.enabled p m.vtimeNow])
  | .wake p isIdle =>
    if p ∈ m.enabled ∧ p ∉ m.dsq ∧ p ∉ m.localDsq ∧ m.curr ≠ some p ∧ (isIdle → m.curr = none) then
      let s := k8sSelectCpu m.toSched p isIdle
      -- a task inserted by `k8s_select_cpu` is not enqueued again
      some ({ m with toSched := if isIdle then s else k8sEnqueue s p }, [])
    else none
  | .pick =>
    match m.curr with
    | some _ => none
    | none =>
      match (balance m.toSched).1.localDsq with
      | [] => none
      | p :: rest => some (switchTo { m with toSched := (balance m.toSched).1 } p rest,
        (balance m.toSched).2)
  | .run ns =>
    match m.curr with
    | none => none
    | some p => some ({ setSlice m p (BitVec.ofNat 64 ((m.scx p).slice.toNat - ns)) with
        ran := m.ran + ns }, [.ran p ns])
  | .sleep =>
    match m.curr with
    | none => none
    | some p => some ({ m with toSched := k8sStopping m.toSched p, curr := none },
        [.stopped p (chargeOf m.toSched p)])
  | .preempt =>
    match m.curr with
    | none => none
    | some p =>
      if (m.scx p).slice ≠ 0 then
        some ({ m with toSched := { k8sStopping m.toSched p with localDsq := p :: m.localDsq }
                       curr := none }, [.stopped p (chargeOf m.toSched p)])
      else some ({ m with toSched := requeue m.toSched p, curr := none },
        [.stopped p (chargeOf m.toSched p)])
  | .expire =>
    match m.curr with
    | none => none
    | some p =>
      if (m.scx p).slice ≠ 0 then none
      else match (balance m.toSched).1.localDsq with
        | [] => some (setSlice m p scxSliceDfl, [.refilled p])
        | q :: rest => some (switchTo { m with toSched := requeue (balance m.toSched).1 p } q rest,
            (balance m.toSched).2 ++ [.stopped p (chargeOf m.toSched p)])
  | .setMaps maps => some ({ m with maps := maps }, [])

/-! ## What a step can do -/

/-- Every way a step can go, with its guards. -/
inductive Does (m : Machine V τ) : Action τ → Machine V τ → List (Event V τ) → Prop
  | enable {p : τ} (hp : p ∉ m.enabled) :
      Does m (.enable p) { m with toSched := k8sEnable m.toSched p, enabled := insert p m.enabled }
        [.enabled p m.vtimeNow]
  | wakeLocal {p : τ} (hp : p ∈ m.enabled) (hd : p ∉ m.dsq) (hl : p ∉ m.localDsq)
      (hc : m.curr = none) :
      Does m (.wake p true) { m with toSched := k8sSelectCpu m.toSched p true } []
  | wakeQueue {p : τ} (hp : p ∈ m.enabled) (hd : p ∉ m.dsq) (hl : p ∉ m.localDsq)
      (hc : m.curr ≠ some p) :
      Does m (.wake p false) { m with toSched := k8sEnqueue m.toSched p } []
  | pickLocal {p : τ} {rest : List τ} (hc : m.curr = none) (hl : m.localDsq = p :: rest) :
      Does m .pick (switchTo m p rest) []
  | pickMoved {p : τ} (hc : m.curr = none) (hl : m.localDsq = []) (hq : m.lowestVtime = some p) :
      Does m .pick (switchTo { m with dsq := m.dsq.erase p } p []) [.moved p]
  | run {p : τ} {ns : Nat} (hc : m.curr = some p) :
      Does m (.run ns) { setSlice m p (BitVec.ofNat 64 ((m.scx p).slice.toNat - ns)) with
        ran := m.ran + ns } [.ran p ns]
  | sleep {p : τ} (hc : m.curr = some p) :
      Does m .sleep { m with toSched := k8sStopping m.toSched p, curr := none }
        [.stopped p (chargeOf m.toSched p)]
  | preemptKeep {p : τ} (hc : m.curr = some p) (hs : (m.scx p).slice ≠ 0) :
      Does m .preempt
        { m with toSched := { k8sStopping m.toSched p with localDsq := p :: m.localDsq }
                 curr := none } [.stopped p (chargeOf m.toSched p)]
  | preemptQueue {p : τ} (hc : m.curr = some p) (hs : (m.scx p).slice = 0) :
      Does m .preempt { m with toSched := requeue m.toSched p, curr := none }
        [.stopped p (chargeOf m.toSched p)]
  | refill {p : τ} (hc : m.curr = some p) (hs : (m.scx p).slice = 0) (hl : m.localDsq = [])
      (hd : m.dsq = []) : Does m .expire (setSlice m p scxSliceDfl) [.refilled p]
  | expireLocal {p q : τ} {rest : List τ} (hc : m.curr = some p) (hs : (m.scx p).slice = 0)
      (hl : m.localDsq = q :: rest) :
      Does m .expire (switchTo { m with toSched := requeue m.toSched p } q rest)
        [.stopped p (chargeOf m.toSched p)]
  | expireMoved {p q : τ} (hc : m.curr = some p) (hs : (m.scx p).slice = 0) (hl : m.localDsq = [])
      (hq : m.lowestVtime = some q) :
      Does m .expire
        (switchTo { m with toSched := requeue { m.toSched with dsq := m.dsq.erase q } p } q [])
        [.moved q, .stopped p (chargeOf m.toSched p)]
  | setMaps {maps : ParamMaps} : Does m (.setMaps maps) { m with maps := maps } []

theorem balance_of_local {s : Sched V τ} {p : τ} {rest : List τ} (h : s.localDsq = p :: rest) :
    balance s = (s, []) := by
  simp [balance, h]

theorem balance_of_none {s : Sched V τ} (h : s.localDsq = []) (hq : s.lowestVtime = none) :
    balance s = (s, []) := by
  simp [balance, h, hq, k8sDispatch, scxDsqMoveToLocal]

theorem balance_of_some {s : Sched V τ} {p : τ} (h : s.localDsq = [])
    (hq : s.lowestVtime = some p) :
    balance s = ({ s with dsq := s.dsq.erase p, localDsq := [p] }, [.moved p]) := by
  simp [balance, h, hq, k8sDispatch, scxDsqMoveToLocal]

theorem requeue_setLocal (s : Sched V τ) (l : List τ) (p : τ) :
    requeue { s with localDsq := l } p = { requeue s p with localDsq := l } := rfl

/-- The local queue is replaced by the switch, whatever it was before. -/
theorem switchTo_requeue (m : Machine V τ) (s : Sched V τ) (l rest : List τ) (p q : τ) :
    switchTo { m with toSched := requeue { s with localDsq := l } p } q rest =
      switchTo { m with toSched := requeue s p } q rest := by
  rw [requeue_setLocal]
  rfl

theorem step_does {m t : Machine V τ} {a : Action τ} {es : List (Event V τ)}
    (h : step m a = some (t, es)) : Does m a t es := by
  cases a with
  | enable p =>
    simp only [step] at h
    split at h
    · cases h
    · next hp => cases h; exact .enable hp
  | wake p isIdle =>
    simp only [step] at h
    split at h
    · next hg =>
      obtain ⟨hp, hd, hl, hc, hi⟩ := hg
      cases isIdle with
      | true => cases h; exact .wakeLocal hp hd hl (hi rfl)
      | false => cases h; exact .wakeQueue hp hd hl hc
    · cases h
  | pick =>
    simp only [step] at h
    cases hc : m.curr with
    | some p => rw [hc] at h; cases h
    | none =>
      simp only [hc] at h
      cases hl : m.localDsq with
      | cons p rest =>
        simp only [balance_of_local hl, hl] at h
        cases h
        exact .pickLocal hc hl
      | nil =>
        cases hq : m.lowestVtime with
        | none => simp [balance_of_none hl hq, hl] at h
        | some p =>
          simp only [balance_of_some hl hq] at h
          cases h
          exact .pickMoved hc hl hq
  | run ns =>
    simp only [step] at h
    cases hc : m.curr with
    | none => simp [hc] at h
    | some p => simp only [hc] at h; cases h; exact .run hc
  | sleep =>
    simp only [step] at h
    cases hc : m.curr with
    | none => simp [hc] at h
    | some p => simp only [hc] at h; cases h; exact .sleep hc
  | preempt =>
    simp only [step] at h
    cases hc : m.curr with
    | none => simp [hc] at h
    | some p =>
      simp only [hc] at h
      split at h
      · next hs => cases h; exact .preemptKeep hc hs
      · next hs => cases h; exact .preemptQueue hc (not_not.mp hs)
  | expire =>
    simp only [step] at h
    cases hc : m.curr with
    | none => simp [hc] at h
    | some p =>
      simp only [hc] at h
      split at h
      · cases h
      · next hs =>
        have hs := not_not.mp hs
        cases hl : m.localDsq with
        | cons q rest =>
          simp only [balance_of_local hl, hl] at h
          cases h
          exact .expireLocal hc hs hl
        | nil =>
          cases hq : m.lowestVtime with
          | none =>
            simp only [balance_of_none hl hq, hl] at h
            cases h
            exact .refill hc hs hl (lowest_eq_none.mp hq)
          | some q =>
            simp only [balance_of_some hl hq] at h
            cases h
            have hd : Does m .expire _ _ := .expireMoved hc hs hl hq
            rw [← switchTo_requeue m { m.toSched with dsq := m.dsq.erase q } [q]] at hd
            exact hd
  | setMaps maps => cases h; exact .setMaps

end K8sSched.Bpf.OneCpu
