import K8sSched.Bpf.Places

/-! # The scheduler on an ideal clock

The code keeps virtual times in 64-bit words and compares them by the sign of
their difference. As long as all virtual times lie within a window narrower than
half the range of a word, that is the scheduler on integer virtual times, seen
through the words that hold them: every step of the one is a step of the other.
The results about long runs are proved on integers and carried over. -/

namespace K8sSched.Bpf.Ideal
open K8sSched.Bpf.Params K8sSched.Bpf.Ops K8sSched.Bpf.OneCpu K8sSched.Bpf.Places
open K8sSched.Lib.WrapClock K8sSched.Lib.FifoQueue K8sSched.Lib.Runs

variable {τ : Type} [DecidableEq τ]

def wrapEntity (e : ScxEntity Int) : ScxEntity U64 := ⟨wrap e.dsqVtime, e.slice⟩

def wrapSched (s : Sched Int τ) : Sched U64 τ where
  vtimeNow := wrap s.vtimeNow
  maps := s.maps
  stats := s.stats
  task := s.task
  scx := wrapEntity ∘ s.scx
  dsq := s.dsq
  localDsq := s.localDsq

def wrapMachine (m : Machine Int τ) : Machine U64 τ :=
  { wrapSched m.toSched with enabled := m.enabled, curr := m.curr, ran := m.ran }

def wrapEvent : Event Int τ → Event U64 τ
  | .enabled p v => .enabled p (wrap v)
  | .moved p => .moved p
  | .ran p ns => .ran p ns
  | .stopped p c => .stopped p c
  | .refilled p => .refilled p

/-- The width of the window: half the range of a word, less a margin for one
charge and one clamp. -/
def window : Int := 2 ^ 62 + 2 ^ 61

/-- The clock and the virtual times of the tasks in `on` lie in the window that
starts at `lo`. -/
structure Near (lo : Int) (on : Finset τ) (s : Sched Int τ) : Prop where
  now : lo ≤ s.vtimeNow ∧ s.vtimeNow ≤ lo + window
  vtime : ∀ p ∈ on, lo ≤ (s.scx p).dsqVtime ∧ (s.scx p).dsqVtime ≤ lo + window

theorem clamp_int (now v : Int) : clampVtime now v = max v (now - 5000000) := by
  have hd : (defaultSliceNs.toNat : Int) = 5000000 := rfl
  unfold clampVtime
  rw [before_int, sub_int, hd]
  by_cases h : v < now - 5000000
  · rw [if_pos (by simpa using h)]
    omega
  · rw [if_neg (by simpa using h)]
    omega

/-! ## The integer clock -/

omit [DecidableEq τ] in
theorem switchTo_max (m : Machine Int τ) (p : τ) (rest : List τ) :
    (switchTo m p rest).vtimeNow = max m.vtimeNow (m.scx p).dsqVtime := by
  rw [switchTo_vtimeNow, before_int]
  by_cases hlt : m.vtimeNow < (m.scx p).dsqVtime
  · rw [if_pos (decide_eq_true hlt), max_eq_right hlt.le]
  · rw [if_neg (by simpa using hlt), max_eq_left (not_lt.mp hlt)]

omit [DecidableEq τ] in
/-- The task `k8s_dispatch` chooses has the least virtual time. -/
theorem lowestVtime_le {s : Sched Int τ} {p : τ} (hq : s.lowestVtime = some p) :
    ∀ j ∈ s.dsq, (s.scx p).dsqVtime ≤ (s.scx j).dsqVtime :=
  lowest_le (fun _ _ _ _ => rfl) hq

/-! ## The callbacks -/

section

omit [DecidableEq τ]

@[simp] theorem wrapSched_params (s : Sched Int τ) (p : τ) :
    (wrapSched s).params p = s.params p := rfl

@[simp] theorem wrapSched_slice (s : Sched Int τ) (p : τ) :
    ((wrapSched s).scx p).slice = (s.scx p).slice := rfl

theorem wrapSched_chargeOf (s : Sched Int τ) (p : τ) :
    chargeOf (wrapSched s) p = chargeOf s p := rfl

end

theorem wrapSched_selectCpu (s : Sched Int τ) (p : τ) (isIdle : Bool) :
    k8sSelectCpu (wrapSched s) p isIdle = wrapSched (k8sSelectCpu s p isIdle) := by
  cases isIdle with
  | false => rfl
  | true =>
    simp only [k8sSelectCpu, if_true, wrapSched, scxDsqInsert, Function.comp_update]
    rfl

theorem wrapSched_stopping (s : Sched Int τ) (p : τ) :
    k8sStopping (wrapSched s) p = wrapSched (k8sStopping s p) := by
  simp only [k8sStopping, wrapSched, Function.comp_update, wrapEntity, wrap_add]
  rfl

theorem wrapSched_enable (s : Sched Int τ) (p : τ) :
    k8sEnable (wrapSched s) p = wrapSched (k8sEnable s p) := by
  simp only [k8sEnable, wrapSched, Function.comp_update]
  rfl

theorem wrap_clamp {now v : Int} (hlo : -2 ^ 62 - 2 ^ 61 ≤ v - now)
    (hhi : v - now ≤ 2 ^ 62 + 2 ^ 61 + 50000000000) :
    clampVtime (wrap now) (wrap v) = wrap (clampVtime now v) := by
  have hd : (defaultSliceNs.toNat : Int) = 5000000 := rfl
  have hb : VClock.before (wrap v) (VClock.sub (wrap now) defaultSliceNs) =
      VClock.before v (VClock.sub now defaultSliceNs) := by
    rw [← wrap_sub]
    refine before_wrap ?_ ?_
    · rw [sub_int, hd]; omega
    · rw [sub_int, hd]; omega
  unfold clampVtime
  rw [hb, ← wrap_sub, apply_ite wrap]

theorem wrapSched_enqueue_of_clamp {s : Sched Int τ} {p : τ}
    (h : clampVtime (wrap s.vtimeNow) (wrap (s.scx p).dsqVtime) =
      wrap (clampVtime s.vtimeNow (s.scx p).dsqVtime)) :
    k8sEnqueue (wrapSched s) p = wrapSched (k8sEnqueue s p) := by
  have hc : clampVtime (wrapSched s).vtimeNow ((wrapSched s).scx p).dsqVtime =
      wrap (clampVtime s.vtimeNow (s.scx p).dsqVtime) := h
  simp only [k8sEnqueue, hc]
  simp only [wrapSched, scxDsqInsertVtime, Function.comp_update]
  rfl

theorem wrapSched_enqueue {s : Sched Int τ} {p : τ}
    (hlo : -2 ^ 62 - 2 ^ 61 ≤ (s.scx p).dsqVtime - s.vtimeNow)
    (hhi : (s.scx p).dsqVtime - s.vtimeNow ≤ 2 ^ 62 + 2 ^ 61 + 50000000000) :
    k8sEnqueue (wrapSched s) p = wrapSched (k8sEnqueue s p) :=
  wrapSched_enqueue_of_clamp (wrap_clamp hlo hhi)

omit [DecidableEq τ] in
theorem wrapSched_running {s : Sched Int τ} {p : τ}
    (hlo : -2 ^ 63 ≤ s.vtimeNow - (s.scx p).dsqVtime)
    (hhi : s.vtimeNow - (s.scx p).dsqVtime < 2 ^ 63) :
    k8sRunning (wrapSched s) p = wrapSched (k8sRunning s p) := by
  have hb : VClock.before (wrapSched s).vtimeNow ((wrapSched s).scx p).dsqVtime =
      VClock.before s.vtimeNow (s.scx p).dsqVtime := before_wrap hlo hhi
  simp only [k8sRunning, hb]
  split
  · rfl
  · rfl

section Near

variable {lo : Int} {on : Finset τ} {s : Sched Int τ} {p : τ}

omit [DecidableEq τ] in
theorem Near.lowestVtime (h : Near lo on s) (hd : ∀ p ∈ s.dsq, p ∈ on) :
    (wrapSched s).lowestVtime = s.lowestVtime := by
  refine lowest_congr fun p hp q hq => ?_
  have hwp := h.vtime p (hd p hp)
  have hwq := h.vtime q (hd q hq)
  unfold window at hwp hwq
  exact before_wrap (by omega) (by omega)

theorem Near.dispatch (h : Near lo on s) (hd : ∀ p ∈ s.dsq, p ∈ on) :
    k8sDispatch (wrapSched s) = wrapSched (k8sDispatch s) := by
  simp only [k8sDispatch, scxDsqMoveToLocal, h.lowestVtime hd]
  cases s.lowestVtime with
  | none => rfl
  | some p => rfl

theorem Near.balance (h : Near lo on s) (hd : ∀ p ∈ s.dsq, p ∈ on) :
    balance (wrapSched s) =
      (wrapSched (balance s).1, (balance s).2.map wrapEvent) := by
  cases hl : s.localDsq with
  | nil =>
    have hl' : (wrapSched s).localDsq = [] := hl
    simp only [OneCpu.balance, hl, hl', h.dispatch hd, h.lowestVtime hd, List.map_map]
    rfl
  | cons q rest =>
    rw [balance_of_local hl, balance_of_local (s := wrapSched s) hl]
    rfl

theorem Near.enqueue (h : Near lo on s) (hp : p ∈ on) :
    k8sEnqueue (wrapSched s) p = wrapSched (k8sEnqueue s p) := by
  have hn := h.now
  have hv := h.vtime p hp
  unfold window at hn hv
  exact wrapSched_enqueue (by omega) (by omega)

theorem Near.requeue (h : Near lo on s) (hp : p ∈ on) :
    requeue (wrapSched s) p = wrapSched (requeue s p) := by
  have hn := h.now
  have hv := h.vtime p hp
  have hc := stoppingCharge_le (s.params p) (s.scx p).slice
  unfold window at hn hv
  unfold OneCpu.requeue
  rw [wrapSched_stopping]
  have hv' : ((k8sStopping s p).scx p).dsqVtime =
      (s.scx p).dsqVtime + (stoppingCharge (s.params p) (s.scx p).slice).toNat := by
    simp [add_int]
  refine wrapSched_enqueue ?_ ?_
  · rw [hv', k8sStopping_vtimeNow]; omega
  · rw [hv', k8sStopping_vtimeNow]; omega

theorem balance_vtimeNow (s : Sched Int τ) : (OneCpu.balance s).1.vtimeNow = s.vtimeNow := by
  unfold OneCpu.balance k8sDispatch scxDsqMoveToLocal
  split
  · split <;> rfl
  · rfl

theorem balance_scx (s : Sched Int τ) : (OneCpu.balance s).1.scx = s.scx := by
  unfold OneCpu.balance k8sDispatch scxDsqMoveToLocal
  split
  · split <;> rfl
  · rfl

theorem balance_mem {q : τ} {rest : List τ} (h : (OneCpu.balance s).1.localDsq = q :: rest) :
    q ∈ s.localDsq ++ s.dsq := by
  cases hl : s.localDsq with
  | cons x xs =>
    rw [balance_of_local hl] at h
    rw [← hl, h]
    simp
  | nil =>
    cases hq : s.lowestVtime with
    | none => simp [balance_of_none hl hq, hl] at h
    | some x =>
      rw [balance_of_some hl hq] at h
      obtain ⟨rfl, -⟩ := List.cons.inj h
      exact List.mem_append_right _ (lowest_mem hq)

theorem Near.of_balance (h : Near lo on s) : Near lo on (OneCpu.balance s).1 :=
  ⟨by rw [balance_vtimeNow]; exact h.now, by rw [balance_scx]; exact h.vtime⟩

omit [DecidableEq τ] in
/-- The task that gets the CPU in a state with the clock and its virtual time
as they were in `s`. -/
theorem Near.switchTo (h : Near lo on s) (hp : p ∈ on) {m : Machine Int τ}
    (hnow : m.vtimeNow = s.vtimeNow) (hscx : m.scx p = s.scx p) (rest : List τ) :
    switchTo (wrapMachine m) p rest = wrapMachine (switchTo m p rest) := by
  have hn := h.now
  have hv := h.vtime p hp
  unfold window at hn hv
  have hr : k8sRunning (wrapSched { m.toSched with localDsq := rest }) p =
      wrapSched (k8sRunning { m.toSched with localDsq := rest } p) := by
    refine wrapSched_running ?_ ?_
    · show -2 ^ 63 ≤ m.vtimeNow - (m.scx p).dsqVtime
      rw [hnow, hscx]; omega
    · show m.vtimeNow - (m.scx p).dsqVtime < 2 ^ 63
      rw [hnow, hscx]; omega
  unfold OneCpu.switchTo wrapMachine
  exact congrArg (fun s => ({ s with enabled := m.enabled, curr := some p, ran := 0 } : Machine U64 τ)) hr

end Near

/-! ## The steps -/

/-- With the tasks that hold a slice in the window, a step of the code is the
step of the ideal, provided that a task that wakes up is clamped as in the
ideal. -/
theorem step_wrap_of_held {lo : Int} {on : Finset τ} {m : Machine Int τ} (hw : Wf m)
    (hon : ∀ p ∈ held m, p ∈ on) (hn : Near lo on m.toSched) (a : Action τ)
    (hq : ∀ p, a = .wake p false → (step m a).isSome →
      k8sEnqueue (wrapSched m.toSched) p = wrapSched (k8sEnqueue m.toSched p)) :
    step (wrapMachine m) a = (step m a).map fun r => (wrapMachine r.1, r.2.map wrapEvent) := by
  have hdsq : ∀ p ∈ m.dsq, p ∈ on := fun p hp =>
    hon p (List.mem_append_right _ (List.mem_append_right _ hp))
  have hbal := hn.balance hdsq
  have hsched : (wrapMachine m).toSched = wrapSched m.toSched := rfl
  have hlocal : (wrapSched (balance m.toSched).1).localDsq = (balance m.toSched).1.localDsq := rfl
  cases a with
  | enable p =>
    simp only [step, wrapMachine, wrapSched_enable]
    split <;> rfl
  | wake p isIdle =>
    by_cases hg : p ∈ m.enabled ∧ p ∉ m.dsq ∧ p ∉ m.localDsq ∧ m.curr ≠ some p ∧
        (isIdle → m.curr = none)
    · have hsome : step m (.wake p isIdle) = some _ := if_pos hg
      have hs : (if isIdle then k8sSelectCpu (wrapSched m.toSched) p isIdle
          else k8sEnqueue (k8sSelectCpu (wrapSched m.toSched) p isIdle) p) =
          wrapSched (if isIdle then k8sSelectCpu m.toSched p isIdle
            else k8sEnqueue (k8sSelectCpu m.toSched p isIdle) p) := by
        cases isIdle with
        | true => exact wrapSched_selectCpu m.toSched p true
        | false => exact hq p rfl (by rw [hsome]; rfl)
      rw [hsome]
      refine (if_pos hg).trans ?_
      rw [show (wrapMachine m).toSched = wrapSched m.toSched from rfl, hs]
      rfl
    · rw [show step m (.wake p isIdle) = none from if_neg hg]
      exact if_neg hg
  | pick =>
    cases hc : m.curr with
    | some p => simp [step, hc, show (wrapMachine m).curr = some p from hc]
    | none =>
      simp only [step, hc, show (wrapMachine m).curr = none from hc, hsched, hbal, hlocal]
      cases hl : (balance m.toSched).1.localDsq with
      | nil => rfl
      | cons p rest =>
        have hp : p ∈ on := hon p (List.mem_append_right _ (balance_mem hl))
        have hsw := hn.of_balance.switchTo hp (m := { m with toSched := (balance m.toSched).1 })
          rfl rfl rest
        exact congrArg (fun x => some (x, (balance m.toSched).2.map wrapEvent)) hsw
  | run ns =>
    cases hc : m.curr with
    | none => simp [step, hc, show (wrapMachine m).curr = none from hc]
    | some p =>
      simp only [step, hc, show (wrapMachine m).curr = some p from hc, Option.map_some]
      refine congrArg some (Prod.ext ?_ rfl)
      simp only [setSlice, wrapMachine, wrapSched, Function.comp_update]
      rfl
  | sleep =>
    cases hc : m.curr with
    | none => simp [step, hc, show (wrapMachine m).curr = none from hc]
    | some p =>
      simp only [step, hc, show (wrapMachine m).curr = some p from hc, hsched,
        wrapSched_stopping, wrapSched_chargeOf]
      rfl
  | preempt =>
    cases hc : m.curr with
    | none => simp [step, hc, show (wrapMachine m).curr = none from hc]
    | some p =>
      have hp : p ∈ on := hon p (by simp [held, hc])
      simp only [step, hc, show (wrapMachine m).curr = some p from hc, hsched, wrapSched_slice,
        wrapSched_stopping, wrapSched_chargeOf, hn.requeue hp]
      split <;> rfl
  | expire =>
    cases hc : m.curr with
    | none => simp [step, hc, show (wrapMachine m).curr = none from hc]
    | some p =>
      have hp : p ∈ on := hon p (by simp [held, hc])
      simp only [step, hc, show (wrapMachine m).curr = some p from hc, hsched, hbal, hlocal,
        wrapSched_slice, wrapSched_chargeOf, hn.of_balance.requeue hp]
      split
      · rfl
      · cases hl : (balance m.toSched).1.localDsq with
        | nil =>
          refine congrArg some (Prod.ext ?_ rfl)
          simp only [setSlice, wrapMachine, wrapSched, Function.comp_update]
          rfl
        | cons q rest =>
          have hmem := balance_mem hl
          have hq : q ∈ on := hon q (List.mem_append_right _ hmem)
          have hqp : q ≠ p := hw.waiting_ne hc hmem
          have hsw := hn.of_balance.switchTo hq
            (m := { m with toSched := requeue (balance m.toSched).1 p }) rfl
            (by simp [hqp]) rest
          simp only [Option.map_some, List.map_append]
          exact congrArg (fun x => some (x, (balance m.toSched).2.map wrapEvent ++
            [.stopped p (chargeOf m.toSched p)])) hsw
  | setMaps maps => rfl

/-- In the window, a step of the code is the step of the ideal. -/
theorem step_wrap {lo : Int} {m : Machine Int τ} (hw : Wf m) (hn : Near lo m.enabled m.toSched)
    (a : Action τ) :
    step (wrapMachine m) a = (step m a).map fun r => (wrapMachine r.1, r.2.map wrapEvent) := by
  refine step_wrap_of_held hw hw.on hn a fun p ha hs => ?_
  subst ha
  obtain ⟨⟨t, es⟩, hr⟩ := Option.isSome_iff_exists.mp hs
  cases step_does hr with
  | wakeQueue hp => exact hn.enqueue hp

/-! ## Reading a state of the code as an ideal one -/

/-- The virtual times as signed distances from the clock. -/
def ideal (m : Machine U64 τ) : Machine Int τ where
  vtimeNow := m.vtimeNow.toNat
  maps := m.maps
  stats := m.stats
  task := m.task
  scx := fun p => ⟨m.vtimeNow.toNat + ((m.scx p).dsqVtime - m.vtimeNow).toInt, (m.scx p).slice⟩
  dsq := m.dsq
  localDsq := m.localDsq
  enabled := m.enabled
  curr := m.curr
  ran := m.ran

omit [DecidableEq τ] in
theorem wrapMachine_ideal (m : Machine U64 τ) : wrapMachine (ideal m) = m := by
  have hnow : wrap (m.vtimeNow.toNat : Int) = m.vtimeNow := by simp [wrap]
  have hscx : wrapEntity ∘ (ideal m).scx = m.scx := by
    funext p
    show (⟨BitVec.ofInt 64 (m.vtimeNow.toNat + ((m.scx p).dsqVtime - m.vtimeNow).toInt),
      (m.scx p).slice⟩ : ScxEntity U64) = m.scx p
    rw [ofInt_add_toInt_sub]
  show Machine.mk ⟨wrap (m.vtimeNow.toNat : Int), m.maps, m.stats, m.task,
    wrapEntity ∘ (ideal m).scx, m.dsq, m.localDsq⟩ m.enabled m.curr m.ran = m
  rw [hnow, hscx]

omit [DecidableEq τ] in
theorem wf_wrapMachine {m : Machine Int τ} : Wf (wrapMachine m) ↔ Wf m :=
  ⟨fun h => ⟨h.nodup, h.on, h.waiting, h.running⟩, fun h => ⟨h.nodup, h.on, h.waiting, h.running⟩⟩

omit [DecidableEq τ] in
theorem wf_ideal {m : Machine U64 τ} (h : Wf m) : Wf (ideal m) :=
  wf_wrapMachine.mp (by rw [wrapMachine_ideal]; exact h)

end K8sSched.Bpf.Ideal
