import K8sSched.Bpf.Ideal
import K8sSched.Bpf.TaskView

/-! # The order of dispatch on a clock that wraps

The clock advances by up to 10000 ns of virtual time for each nanosecond of CPU
time, and the virtual time of a sleeping task stands still. Once the clock is
`2 ^ 63` ahead of it, `vtime_before` takes the sleeper to be ahead of the clock:
the clamp of `k8s_enqueue` leaves its virtual time alone, and the queue orders
it last instead of first. Tasks that hold a slice cannot get that far apart. In
every run in which the clamp judges each task that wakes up rightly, the order
of dispatch is the one on integers. -/

namespace K8sSched.Bpf.WrapFaithful
open K8sSched.Bpf.Params K8sSched.Bpf.Ops K8sSched.Bpf.OneCpu K8sSched.Bpf.Places
open K8sSched.Bpf.Ideal K8sSched.Bpf.TaskView
open K8sSched.Lib.WrapClock K8sSched.Lib.FifoQueue K8sSched.Lib.Runs

variable {V τ : Type} [VClock V] [DecidableEq τ]

/-! ## The runs -/

/-- The tasks `k8s_dispatch` moved, in order. -/
def dispatched (tr : List (Event V τ)) : List τ :=
  tr.filterMap fun | .moved p => some p | _ => none

omit [VClock V] [DecidableEq τ] in
theorem dispatched_append (tr tr' : List (Event V τ)) :
    dispatched (tr ++ tr') = dispatched tr ++ dispatched tr' := List.filterMap_append

omit [DecidableEq τ] in
theorem dispatched_wrap (tr : List (Event Int τ)) :
    dispatched (tr.map wrapEvent) = dispatched tr := by
  unfold dispatched
  rw [List.filterMap_map]
  congr 1
  funext e
  cases e <;> rfl

/-- The steps after which the words still stand for the integers. A task woken
into `K8S_DSQ_ID` is not behind the clock by more than a slice, or by a distance
the sign of the difference shows; a task is put on an idle CPU only while
nothing waits; and a task is preempted after a nanosecond at least, as each
preemption charges it again for all of its slice used so far. -/
def Timely (m : Machine Int τ) : Action τ → Prop
  | .wake p false => m.vtimeNow - 5000000 ≤ (m.scx p).dsqVtime ∨
      (m.vtimeNow - 5000000 - (m.scx p).dsqVtime) % 2 ^ 64 ≤ 2 ^ 63
  | .wake p true => m.localDsq = [] ∧ m.dsq = [] ∧ m.vtimeNow - 2 ^ 62 ≤ (m.scx p).dsqVtime
  | .preempt => 1 ≤ m.ran
  | _ => True

instance (m : Machine Int τ) : ∀ a, Decidable (Timely m a)
  | .wake _ false => inferInstanceAs (Decidable (_ ∨ _))
  | .wake _ true => inferInstanceAs (Decidable (_ ∧ _))
  | .preempt => inferInstanceAs (Decidable (_ ≤ _))
  | .enable _ | .pick | .run _ | .sleep | .expire | .setMaps _ => .isTrue trivial

/-! ## The clamp -/

/-- The clamp on words is the clamp on integers exactly where the sign of the
difference, or no difference at all, shows a task to be behind. -/
theorem wrap_clamp_iff {now v : Int} (hv : v ≤ now + 50000000000) :
    clampVtime (wrap now) (wrap v) = wrap (clampVtime now v) ↔
      now - 5000000 ≤ v ∨ (now - 5000000 - v) % 2 ^ 64 ≤ 2 ^ 63 := by
  have hd : (defaultSliceNs.toNat : Int) = 5000000 := rfl
  have hsub : VClock.sub (wrap now) defaultSliceNs = wrap (now - 5000000) := by
    rw [← wrap_sub, sub_int, hd]
  rw [clamp_int]
  unfold clampVtime
  rw [hsub, before_wrap_eq]
  by_cases hle : now - 5000000 ≤ v
  · rw [max_eq_left hle, if_neg (by rw [decide_eq_true_eq]; omega)]
    exact iff_of_true rfl (.inl hle)
  · rw [max_eq_right (by omega)]
    by_cases hb : 2 ^ 63 ≤ (v - (now - 5000000)) % 2 ^ 64
    · rw [if_pos (decide_eq_true hb)]
      exact iff_of_true rfl (.inr (by omega))
    · rw [if_neg (by rw [decide_eq_true_eq]; exact hb), wrap_eq_wrap]
      omega

/-! ## Tasks that hold a slice -/

/-- The tasks that get the CPU before `k8s_dispatch` chooses again. -/
def turn (m : Machine V τ) : List τ := m.curr.toList ++ m.localDsq

/-- How far a task can get in its turn: one charge for each nanosecond left of
its slice, and one for the stint it is in. -/
def reach (m : Machine Int τ) (x : τ) : Int :=
  (m.scx x).dsqVtime +
    ((m.scx x).slice.toNat + if m.curr = some x then min m.ran 1 else 0 : Nat) * 50000000000

/-- How far the clock, and a task in its turn, can get ahead of a task that
waits. -/
def lead : Int := 5000000 + 20000002 * 50000000000

/-- No task is ahead of the clock by more than one charge; at most one task is
in its turn; and what waits in `K8S_DSQ_ID` is not left behind. -/
structure Close (m : Machine Int τ) : Prop where
  wf : Wf m
  one : (turn m).length ≤ 1
  ahead : ∀ p ∈ m.enabled, (m.scx p).dsqVtime ≤ m.vtimeNow + 50000000000
  current : ∀ p, m.curr = some p → (m.scx p).dsqVtime ≤ m.vtimeNow
  behind : ∀ p ∈ turn m, m.vtimeNow - 2 ^ 62 ≤ (m.scx p).dsqVtime
  clock : ∀ j ∈ m.dsq, m.vtimeNow ≤ (m.scx j).dsqVtime + lead
  next : ∀ x ∈ turn m, ∀ j ∈ m.dsq, reach m x ≤ (m.scx j).dsqVtime + lead

omit [VClock V] [DecidableEq τ] in
theorem mem_held_of_turn {m : Machine V τ} {x : τ} (h : x ∈ turn m) : x ∈ held m := by
  simp only [turn, held, List.mem_append] at h ⊢
  tauto

section Close

variable {m t : Machine Int τ} {a : Action τ} {es : List (Event Int τ)} {p x : τ}

omit [DecidableEq τ] in
theorem turn_of_curr (hone : (turn m).length ≤ 1) (hc : m.curr = some p) :
    turn m = [p] ∧ m.localDsq = [] := by
  simp only [turn, hc, Option.toList_some, List.singleton_append, List.length_cons] at hone ⊢
  have hl : m.localDsq = [] := List.eq_nil_of_length_eq_zero (by omega)
  exact ⟨by rw [hl], hl⟩

theorem Close.near (h : Close m) :
    Near (m.vtimeNow - 2 ^ 62) (held m).toFinset m.toSched := by
  refine ⟨by unfold window; omega, fun p hp => ?_⟩
  have hp := List.mem_toFinset.mp hp
  have ha := h.ahead p (h.wf.on p hp)
  have hb : m.vtimeNow - 2 ^ 62 ≤ (m.scx p).dsqVtime := by
    rw [held, ← List.append_assoc] at hp
    rcases List.mem_append.mp hp with hp | hp
    · exact h.behind p hp
    · have hc := h.clock p hp
      unfold lead at hc
      omega
  unfold window
  omega

/-- In such a state a step of the code is the step of the ideal. -/
theorem Close.step_wrap (h : Close m) (a : Action τ) (ht : (step m a).isSome → Timely m a) :
    step (wrapMachine m) a = (step m a).map fun r => (wrapMachine r.1, r.2.map wrapEvent) := by
  refine step_wrap_of_held h.wf (fun p hp => List.mem_toFinset.mpr hp) h.near a fun p ha hs => ?_
  subst ha
  obtain ⟨⟨t, es⟩, hr⟩ := Option.isSome_iff_exists.mp hs
  cases step_does hr with
  | wakeQueue hp =>
    exact wrapSched_enqueue_of_clamp ((wrap_clamp_iff (h.ahead p hp)).mpr (ht hs))

theorem mem_turn (hw : Wf m) : x ∈ turn m ↔ place m x = .cpu ∨ place m x = .waitsLocal := by
  rw [place_cpu, place_local hw]
  simp [turn]

theorem reach_of_cpu (hp : place m x = .cpu) : reach m x = (m.scx x).dsqVtime +
    ((m.scx x).slice.toNat + min m.ran 1 : Nat) * 50000000000 := by
  rw [reach, if_pos (place_cpu.mp hp)]

theorem reach_of_local (hp : place m x = .waitsLocal) : reach m x = (m.scx x).dsqVtime +
    (m.scx x).slice.toNat * 50000000000 := by
  have hc : m.curr ≠ some x := fun hc => by simp [place_cpu.mpr hc] at hp
  rw [reach, if_neg hc, Nat.add_zero]

omit [DecidableEq τ] in
theorem slice_le_of_turn (hw : Wf m) (hx : x ∈ turn m) : (m.scx x).slice.toNat ≤ 20000000 := by
  rcases List.mem_append.mp hx with hc | hl
  · exact (hw.running x (by simpa using hc)).1
  · exact (hw.waiting x (List.mem_append_left _ hl)).2

theorem Close.reach_le (h : Close m) (hx : x ∈ turn m) :
    reach m x ≤ m.vtimeNow + 20000002 * 50000000000 := by
  have ha := h.ahead x (h.wf.on x (mem_held_of_turn hx))
  have hs := slice_le_of_turn h.wf hx
  rcases (mem_turn h.wf).mp hx with hp | hp
  · rw [reach_of_cpu hp]
    omega
  · rw [reach_of_local hp]
    omega

omit [VClock V] [DecidableEq τ] in
theorem charge_le (s : Sched V τ) (p : τ) : ((chargeOf s p).toNat : Int) ≤ 50000000000 :=
  Int.ofNat_le.mpr (stoppingCharge_le _ _)

/-! ## One step -/

theorem Close.step_one (h : Close m) (ht : Timely m a) (hd : Does m a t es) :
    (turn t).length ≤ 1 := by
  have hone := h.one
  cases hd with
  | wakeLocal hp hd hl hc => simp [turn, hc, ht.1]
  | pickLocal hc hl => simpa [turn, hc, hl] using hone
  | pickMoved hc hl hq => simp [turn]
  | sleep hc => simp [turn, (turn_of_curr hone hc).2]
  | preemptKeep hc hs => simp [turn, (turn_of_curr hone hc).2]
  | preemptQueue hc hs => simp [turn, (turn_of_curr hone hc).2]
  | expireLocal hc hs hl => simp [(turn_of_curr hone hc).2] at hl
  | expireMoved hc hs hl hq => simp [turn]
  | _ => exact hone

/-- What waits after a step waited before it, or was inserted at most a slice
behind the clock. -/
theorem queued_step {j : τ} (hw : Wf m) (hd : Does m a t es) (hj : j ∈ t.dsq) :
    (j ∈ m.dsq ∧ t.scx j = m.scx j) ∨ m.vtimeNow - 5000000 ≤ (t.scx j).dsqVtime := by
  have hq := (place_queued (hw.step hd)).mpr hj
  cases does_taskStep hw hd j with
  | stay hp hs => exact .inl ⟨(place_queued hw).mp (hp.symm.trans hq), hs⟩
  | wakeQueue hm ht hs =>
    refine .inr ?_
    rw [hs, clamp_int]
    exact le_max_right _ _
  | requeue es ha hm ht hs =>
    refine .inr ?_
    rw [hs, clamp_int]
    exact le_max_right _ _
  | enable _ ht | wakeLocal _ ht | resume _ ht | move _ ht | run _ ht | sleep _ ht | keep _ ht
  | refill _ ht => simp [ht] at hq

/-- What is in its turn after a step was so before it and does not reach
further, or was moved out of `K8S_DSQ_ID`; otherwise nothing waits. -/
theorem Close.turn_step (h : Close m) (ht : Timely m a) (hd : Does m a t es) (hx : x ∈ turn t) :
    (x ∈ turn m ∧ (m.scx x).dsqVtime ≤ (t.scx x).dsqVtime ∧ reach t x ≤ reach m x) ∨
      (m.lowestVtime = some x ∧ t.scx x = m.scx x ∧
        reach t x = (m.scx x).dsqVtime + (m.scx x).slice.toNat * 50000000000) ∨
      (t.dsq = [] ∧ m.vtimeNow - 2 ^ 62 ≤ (t.scx x).dsqVtime) := by
  have hw := h.wf
  have hxt := (mem_turn (hw.step hd)).mp hx
  cases does_taskStep hw hd x with
  | stay hp hs hr =>
    rw [hp] at hxt
    refine .inl ⟨(mem_turn hw).mpr hxt, by rw [hs], ?_⟩
    rcases hxt with hm | hm
    · rw [reach_of_cpu hm, reach_of_cpu (hp.trans hm), hs, hr (place_cpu.mp hm)]
    · rw [reach_of_local hm, reach_of_local (hp.trans hm), hs]
  | wakeLocal hm htx hs =>
    refine .inr (.inr ⟨?_, by rw [hs]; exact ht.2.2⟩)
    cases hd with
    | wakeLocal => exact ht.2.1
  | resume hm htx hs hr =>
    refine .inl ⟨(mem_turn hw).mpr (.inr hm), by rw [hs], ?_⟩
    rw [reach_of_local hm, reach_of_cpu htx, hs, hr, Nat.zero_min, Nat.add_zero]
  | move hm htx hs hr hl hq =>
    refine .inr (.inl ⟨hq, hs, ?_⟩)
    rw [reach_of_cpu htx, hs, hr, Nat.zero_min, Nat.add_zero]
  | @run ns hm htx hs hr =>
    refine .inl ⟨(mem_turn hw).mpr (.inl hm), by rw [hs], ?_⟩
    obtain ⟨hle, hpos⟩ := hw.running x (place_cpu.mp hm)
    have hlt : (m.scx x).slice.toNat < 2 ^ 64 := (m.scx x).slice.isLt
    rw [reach_of_cpu hm, reach_of_cpu htx, hs, hr]
    simp only [BitVec.toNat_ofNat]
    rw [Nat.mod_eq_of_lt (by omega)]
    omega
  | keep hm htx hs h0 =>
    have hran : 1 ≤ m.ran := ht
    have hc := charge_le m.toSched x
    have hv : (t.scx x).dsqVtime = (m.scx x).dsqVtime + (chargeOf m.toSched x).toNat := by
      rw [hs, add_int]
    refine .inl ⟨(mem_turn hw).mpr (.inl hm), by omega, ?_⟩
    rw [reach_of_cpu hm, reach_of_local htx, hv, hs]
    simp only
    omega
  | refill hm htx hs hr h0 hl hdsq =>
    refine .inr (.inr ⟨?_, by rw [hs]; exact h.behind x ((mem_turn hw).mpr (.inl hm))⟩)
    cases hd with
    | refill => exact hdsq
  | enable _ htx | wakeQueue _ htx | sleep _ htx | requeue _ _ _ htx => simp [htx] at hxt

theorem does_vtimeNow_le (hd : Does m a t es) : m.vtimeNow ≤ t.vtimeNow := by
  rcases does_vtimeNow hd with hn | ⟨p, -, hb, hn⟩
  · exact hn.ge
  · rw [hn]
    exact (of_decide_eq_true hb).le

/-- The clock is not behind the task on the CPU. -/
theorem Close.step_current (h : Close m) (hd : Does m a t es) (hx : t.curr = some x) :
    (t.scx x).dsqVtime ≤ t.vtimeNow := by
  have hcur := h.current x
  have hswitch : ∀ (m' : Machine Int τ) (q : τ) (rest : List τ),
      (switchTo m' q rest).curr = some x →
      ((switchTo m' q rest).scx x).dsqVtime ≤ (switchTo m' q rest).vtimeNow := by
    intro m' q rest hq
    obtain rfl : q = x := Option.some.inj hq
    rw [switchTo_scx, switchTo_max]
    exact le_max_right _ _
  cases hd with
  | @enable p hp =>
    have hc : m.curr = some x := hx
    have hon : x ∈ m.enabled := h.wf.on x (by simp [held, hc])
    have hxp : x ≠ p := fun he => hp (he ▸ hon)
    simpa [hxp] using hcur hx
  | wakeLocal hp hd hl hc => simp [hc] at hx
  | @wakeQueue p hp hd hl hc =>
    have hxp : x ≠ p := fun he => hc (he ▸ hx)
    simpa [hxp] using hcur hx
  | pickLocal => exact hswitch _ _ _ hx
  | pickMoved => exact hswitch _ _ _ hx
  | run hc =>
    obtain rfl := Option.some.inj (hc.symm.trans hx)
    simpa [setSlice] using hcur hc
  | refill hc =>
    obtain rfl := Option.some.inj (hc.symm.trans hx)
    simpa [setSlice] using hcur hc
  | expireLocal => exact hswitch _ _ _ hx
  | expireMoved => exact hswitch _ _ _ hx
  | sleep | preemptKeep | preemptQueue => cases hx
  | setMaps => exact hcur hx

theorem Close.step_ahead (h : Close m) (hd : Does m a t es) (hx : x ∈ t.enabled) :
    (t.scx x).dsqVtime ≤ t.vtimeNow + 50000000000 := by
  have hnow := does_vtimeNow_le hd
  by_cases hxm : x ∈ m.enabled
  · have ha := h.ahead x hxm
    have hc := charge_le m.toSched x
    cases does_taskStep h.wf hd x with
    | stay _ hs | resume _ _ hs | move _ _ hs => rw [hs]; omega
    | enable _ _ hs | wakeLocal _ _ hs | run _ _ hs | refill _ _ hs => rw [hs]; simp only; omega
    | wakeQueue _ _ hs => rw [hs, clamp_int]; simp only; omega
    | sleep hm _ hs | keep hm _ hs =>
      have hcur := h.current x (place_cpu.mp hm)
      rw [hs, add_int]
      simp only
      omega
    | requeue _ _ hm _ hs =>
      have hcur := h.current x (place_cpu.mp hm)
      rw [hs, clamp_int, add_int]
      simp only
      omega
  · cases hd with
    | enable hp =>
      obtain rfl := (Finset.mem_insert.mp hx).resolve_right hxm
      simp
    | _ => exact absurd hx hxm

theorem Close.step_behind (h : Close m) (ht : Timely m a) (hd : Does m a t es) (hx : x ∈ turn t) :
    t.vtimeNow - 2 ^ 62 ≤ (t.scx x).dsqVtime := by
  have hlo : m.vtimeNow - 2 ^ 62 ≤ (t.scx x).dsqVtime := by
    rcases h.turn_step ht hd hx with ⟨hm, hv, -⟩ | ⟨hq, hs, -⟩ | ⟨-, hv⟩
    · exact (h.behind x hm).trans hv
    · have hc := h.clock x (lowest_mem hq)
      unfold lead at hc
      rw [hs]
      omega
    · exact hv
  rcases does_vtimeNow hd with hn | ⟨p, hc, -, hn⟩
  · rw [hn]
    exact hlo
  · -- the clock moved to the task on the CPU, the only one in its turn
    rw [(turn_of_curr (h.step_one ht hd) hc).1, List.mem_singleton] at hx
    rw [hn, hx]
    omega

theorem Close.step_next (h : Close m) (ht : Timely m a) (hd : Does m a t es) (hx : x ∈ turn t)
    {j : τ} (hj : j ∈ t.dsq) : reach t x ≤ (t.scx j).dsqVtime + lead := by
  rcases h.turn_step ht hd hx with ⟨hm, -, hr⟩ | ⟨hq, -, hr⟩ | ⟨hdsq, -⟩
  · refine hr.trans ?_
    rcases queued_step h.wf hd hj with ⟨hjm, hsj⟩ | hv
    · rw [hsj]
      exact h.next x hm j hjm
    · have hle := h.reach_le hm
      unfold lead
      omega
  · have hxd := lowest_mem hq
    have hslice := (h.wf.waiting x (List.mem_append_right _ hxd)).2
    have hdfl : scxSliceDfl.toNat = 20000000 := rfl
    rcases queued_step h.wf hd hj with ⟨hjm, hsj⟩ | hv
    · have hle := lowestVtime_le hq j hjm
      rw [hsj]
      unfold lead
      omega
    · have ha := h.ahead x (h.wf.on x (List.mem_append_right _ (List.mem_append_right _ hxd)))
      unfold lead
      omega
  · simp [hdsq] at hj

theorem Close.step (h : Close m) (ht : Timely m a) (hd : Does m a t es) : Close t where
  wf := h.wf.step hd
  one := h.step_one ht hd
  ahead _ hx := h.step_ahead hd hx
  current _ hx := h.step_current hd hx
  behind _ hx := h.step_behind ht hd hx
  clock j hj := by
    rcases does_vtimeNow hd with hn | ⟨p, hc, -, hn⟩
    · rw [hn]
      rcases queued_step h.wf hd hj with ⟨hjm, hsj⟩ | hv
      · rw [hsj]
        exact h.clock j hjm
      · unfold lead
        omega
    · have hnext := h.step_next ht hd (x := p) (by simp [turn, hc]) hj
      rw [reach_of_cpu (place_cpu.mpr hc)] at hnext
      rw [hn]
      omega
  next _ hx _ hj := h.step_next ht hd hx hj

end Close

/-! ## Whole runs -/

theorem close_boot (s : Sched U64 τ) : Close (ideal (boot s)) where
  wf := wf_ideal (boot_wf s)
  one := by simp [turn, ideal, boot]
  ahead := by simp [ideal, boot]
  current := by simp [ideal, boot]
  behind := by simp [turn, ideal, boot]
  clock := by simp [ideal, boot]
  next := by simp [ideal, boot]

/-- A timely run of the code is the run of the ideal, state by state. -/
theorem exec_wrap {m : Machine Int τ} (hm : Close m) {as : List (Action τ)}
    (h : AllSteps step Timely m as) : exec step (wrapMachine m) as =
      (exec step m as).map fun r => (wrapMachine r.1, r.2.map wrapEvent) :=
  exec_map wrapMachine wrapEvent (fun _ a hc ht => hc.step_wrap a ht)
    (fun _ _ _ _ hc ht hs => hc.step ht (step_does hs)) hm h

/-- In every timely run, of any length and from any value of the clock, the code
dispatches tasks in the order of the scheduler on integers. -/
theorem order_eq_ideal (s : Sched U64 τ) (as : List (Action τ))
    (h : AllSteps step Timely (ideal (boot s)) as) :
    (exec step (boot s) as).map (fun r => dispatched r.2) =
      (exec step (ideal (boot s)) as).map fun r => dispatched r.2 := by
  have hw := exec_wrap (close_boot s) h
  rw [wrapMachine_ideal] at hw
  rw [hw, Option.map_map]
  congr 1
  funext r
  exact dispatched_wrap r.2

/-- Three tasks of weights 1, 1000 and 10000 while the clock passes `2 ^ 64`. -/
theorem order_eq_ideal_wrapping :
    (exec step (boot { k8sInit ⟨(Finmap.singleton 0 ⟨1, 0⟩).insert 2 ⟨10000, 0⟩, ∅⟩
        (fun p : Fin 3 => ⟨BitVec.ofNat 32 p, none⟩) with vtimeNow := -1000000 })
      [.enable 0, .enable 1, .enable 2, .wake 0 false, .pick, .run 5000000, .wake 1 false,
        .wake 2 false, .expire, .run 2000000, .preempt, .pick, .run 3000000, .expire,
        .run 5000000, .expire]).map (fun r => dispatched r.2) = some [0, 1, 2, 1] := by
  refine (order_eq_ideal _ _ (by decide)).trans (by decide)

/-! ## A task that sleeps for too long -/

section Sleeper

/-- Two processes, the second of weight 1. -/
def sleeperInit : Sched U64 (Fin 2) :=
  k8sInit ⟨Finmap.singleton 1 ⟨1, 0⟩, ∅⟩ fun p => ⟨BitVec.ofNat 32 p, none⟩

/-- The second task uses up a slice and sleeps. -/
def takeSlice : List (Action (Fin 2)) := [.wake 1 false, .pick, .run 5000000, .sleep]

/-- Both tasks are new; the second takes `n` slices; both wake up, and the CPU
takes one of them. -/
def sleepThrough (n : Nat) : List (Action (Fin 2)) :=
  [.enable 0, .enable 1] ++ (List.replicate n takeSlice).flatten ++
    [.wake 0 false, .wake 1 false, .pick]

variable (now v : Int) (left : U64) (enqueues : Nat) (dsq : List (Fin 2)) (curr : Option (Fin 2))
  (ran : Nat)

/-- The first task has slept since it was enabled at 0. -/
def sleeping : Machine Int (Fin 2) where
  vtimeNow := now
  maps := sleeperInit.maps
  stats := ⟨BitVec.ofNat 64 enqueues, 0, 0, 0⟩
  task := sleeperInit.task
  scx := Function.update (fun _ => ⟨0, 0⟩) 1 ⟨v, left⟩
  dsq := dsq
  localDsq := []
  enabled := {1, 0}
  curr := curr
  ran := ran

variable {now v}

theorem weight_one : lookupTaskParams sleeperInit.maps (sleeperInit.task 1) = (true, ⟨1, 0⟩) := by
  decide

theorem sleeping_wake (h : now - 5000000 ≤ v) :
    step (sleeping now v left enqueues [] none ran) (.wake 1 false) =
      some (sleeping now v 5000000 (enqueues + 1) [1] none ran, []) := by
  have hc : clampVtime now v = v := by
    rw [clamp_int]
    omega
  simp only [step]
  rw [if_pos (by simp [sleeping])]
  simp [sleeping, k8sSelectCpu, k8sEnqueue, scxDsqInsertVtime, weight_one, taskSlice, hc,
    BitVec.ofNat_add, defaultSliceNs]

theorem sleeping_pick (h : now ≤ v) :
    step (sleeping now v left enqueues [1] none ran) .pick =
      some (sleeping v v left enqueues [] (some 1) 0, [.moved 1]) := by
  have hl : (sleeping now v left enqueues [1] none ran).lowestVtime = some 1 := rfl
  have hb : balance (sleeping now v left enqueues [1] none ran).toSched = _ :=
    balance_of_some rfl hl
  have hs : switchTo (sleeping now v left enqueues [] none ran) 1 [] =
      sleeping v v left enqueues [] (some 1) 0 := by
    simp only [switchTo, k8sRunning, before_int]
    split
    · rfl
    · next hlt =>
      obtain rfl : now = v := le_antisymm h (by simpa [sleeping] using hlt)
      rfl
  rw [← hs]
  simp only [step]
  rw [hb]
  rfl

theorem sleeping_run :
    step (sleeping now v 5000000 enqueues [] (some 1) 0) (.run 5000000) =
      some (sleeping now v 0 enqueues [] (some 1) 5000000, [.ran 1 5000000]) := by
  simp [step, sleeping, setSlice]

theorem sleeping_sleep :
    step (sleeping now v 0 enqueues [] (some 1) ran) .sleep =
      some (sleeping now (v + 50000000000) 0 enqueues [] none ran, [.stopped 1 50000000000]) := by
  have hc : stoppingCharge ⟨1#64, 0#64⟩ 0#64 = 50000000000#64 := by decide
  simp [step, sleeping, k8sStopping, chargeOf, Sched.params, weight_one, add_int, hc]

def sliceEvents : List (Event Int (Fin 2)) :=
  [.moved 1, .ran 1 5000000, .stopped 1 50000000000]

/-- One slice: the clock moves to the virtual time of the second task, which
moves on by a whole charge. -/
theorem exec_slice (h : now ≤ v) :
    exec step (sleeping now v 0 enqueues [] none ran) takeSlice =
      some (sleeping v (v + 50000000000) 0 (enqueues + 1) [] none 5000000,
        sliceEvents) := by
  refine exec_cons_of_eq (sleeping_wake _ _ _ (by omega)) ?_
  refine exec_cons_of_eq (sleeping_pick _ _ _ h) ?_
  refine exec_cons_of_eq (sleeping_run _) ?_
  exact exec_cons_of_eq (sleeping_sleep _ _) rfl

theorem timely_slice (h : now ≤ v) :
    AllSteps step Timely (sleeping now v 0 enqueues [] none ran) takeSlice := by
  have hv : Timely (sleeping now v 0 enqueues [] none ran) (.wake 1 false) := by
    refine .inl ?_
    show now - 5000000 ≤ v
    omega
  simp only [takeSlice, AllSteps, sleeping_wake 0 enqueues ran (show now - 5000000 ≤ v by omega),
    sleeping_pick _ _ _ h, sleeping_run, sleeping_sleep]
  exact ⟨hv, trivial, trivial, trivial, trivial⟩

/-- After `n + 1` slices. -/
def alone (n : Nat) : Machine Int (Fin 2) :=
  sleeping (n * 50000000000) (n * 50000000000 + 50000000000) 0 (n + 1) [] none 5000000

theorem alone_slices (k n : Nat) : ∃ tr,
    exec step (alone k) (List.replicate n takeSlice).flatten = some (alone (k + n), tr) ∧
      dispatched tr = List.replicate n 1 ∧
      AllSteps step Timely (alone k) (List.replicate n takeSlice).flatten := by
  induction n generalizing k with
  | zero => exact ⟨[], rfl, rfl, trivial⟩
  | succ n ih =>
    obtain ⟨tr, he, hd, ht⟩ := ih (k + 1)
    have hv : ((k + 1 : Nat) : Int) * 50000000000 = k * 50000000000 + 50000000000 := by omega
    have hs : exec step (alone k) takeSlice = some (alone (k + 1), sliceEvents) := by
      unfold alone
      rw [hv]
      exact exec_slice _ _ (by omega)
    rw [List.replicate_succ, List.flatten_cons, List.replicate_succ,
      show k + (n + 1) = k + 1 + n by omega]
    refine ⟨_, exec_append_of_eq hs he, ?_, ?_⟩
    · rw [dispatched_append, hd]
      rfl
    · exact allSteps_append_of_eq (timely_slice _ _ (by omega)) hs ht

theorem exec_new : exec step (ideal (boot sleeperInit)) [.enable 0, .enable 1] =
    some (sleeping 0 0 0 0 [] none 0, [.enabled 0 0, .enabled 1 0]) := by
  have hscx : Function.update (Function.update (ideal (boot sleeperInit)).scx 0 ⟨0, 0⟩) 1 ⟨0, 0⟩ =
      (sleeping 0 0 0 0 [] none 0).scx := by
    funext p
    match p with
    | 0 => rfl
    | 1 => rfl
  refine congrArg some (Prod.ext ?_ rfl)
  exact congrArg (fun f => { sleeping 0 0 0 0 [] none 0 with scx := f }) hscx

/-- The state of the ideal before the two tasks wake up. -/
theorem exec_alone (n : Nat) : ∃ tr,
    exec step (ideal (boot sleeperInit))
        ([.enable 0, .enable 1] ++ (List.replicate (n + 1) takeSlice).flatten) =
      some (alone n, tr) ∧ dispatched tr = List.replicate (n + 1) 1 ∧
    AllSteps step Timely (ideal (boot sleeperInit))
      ([.enable 0, .enable 1] ++ (List.replicate (n + 1) takeSlice).flatten) := by
  obtain ⟨tr, he, hd, ht⟩ := alone_slices 0 n
  rw [Nat.zero_add] at he
  have hs : exec step (sleeping 0 0 0 0 [] none 0) takeSlice = some (alone 0, sliceEvents) :=
    exec_slice _ _ le_rfl
  rw [List.replicate_succ, List.flatten_cons, List.replicate_succ]
  refine ⟨_, exec_append_of_eq exec_new (exec_append_of_eq hs he), ?_, ?_⟩
  · rw [dispatched_append, dispatched_append, hd]
    rfl
  · refine allSteps_append_of_eq (by decide) exec_new ?_
    exact allSteps_append_of_eq (timely_slice _ _ le_rfl) hs ht

/-- Who is dispatched in the end depends on the last state only. -/
theorem order_sleepThrough (n : Nat) {last last' : List (Fin 2)}
    (h : (exec step (wrapMachine (alone n)) [.wake 0 false, .wake 1 false, .pick]).map
      (fun r => dispatched r.2) = some last)
    (h' : (exec step (alone n) [.wake 0 false, .wake 1 false, .pick]).map
      (fun r => dispatched r.2) = some last') :
    (exec step (boot sleeperInit) (sleepThrough (n + 1))).map (fun r => dispatched r.2) =
        some (List.replicate (n + 1) 1 ++ last) ∧
      (exec step (ideal (boot sleeperInit)) (sleepThrough (n + 1))).map (fun r => dispatched r.2) =
        some (List.replicate (n + 1) 1 ++ last') := by
  obtain ⟨tr, he, hd, ht⟩ := exec_alone n
  have hw := exec_wrap (close_boot sleeperInit) ht
  rw [wrapMachine_ideal, he] at hw
  obtain ⟨⟨t, tr₁⟩, ht₁, rfl⟩ := Option.map_eq_some_iff.mp h
  obtain ⟨⟨t', tr₂⟩, ht₂, rfl⟩ := Option.map_eq_some_iff.mp h'
  unfold sleepThrough
  rw [exec_append_of_eq hw ht₁, exec_append_of_eq he ht₂]
  simp only [Option.map_some, dispatched_append, dispatched_wrap, hd, and_self]

/-- After 184467442 slices of a task of weight 1 the clock is more than `2 ^ 63`
ahead of the task that slept. On integers that task is dispatched next; the code
takes it to be ahead of the other. -/
theorem sleeper_passed_over :
    (exec step (boot sleeperInit) (sleepThrough 184467442)).map (fun r => dispatched r.2) =
        some (List.replicate 184467442 1 ++ [1]) ∧
      (exec step (ideal (boot sleeperInit)) (sleepThrough 184467442)).map
        (fun r => dispatched r.2) = some (List.replicate 184467442 1 ++ [0]) :=
  order_sleepThrough 184467441 (by decide) (by decide)

end Sleeper

end K8sSched.Bpf.WrapFaithful
