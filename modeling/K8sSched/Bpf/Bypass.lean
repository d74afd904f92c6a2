import K8sSched.Bpf.TaskView
import K8sSched.Bpf.Ideal
import Mathlib.Data.Fintype.Basic
import Mathlib.Data.List.TakeWhile
import Mathlib.Tactic.Linarith

/-! # Bounded bypass

While a task `i` waits in `K8S_DSQ_ID`, every other task is moved ahead of it a
bounded number of times. A task that was queued before `i` can go once; after
that, and for every other task, it has to be strictly before `i` in virtual
time, and every turn on the CPU that starts from a fresh slice adds at least one.
The argument is about integers, so the virtual times of a run must stay within
the window in which the words compare like integers: while `i` waits, a task
gets the CPU with a virtual time at most that of `i` or of the tasks ahead of
`i`, and how far it can be charged before it queues again is bounded by its
slice. -/

namespace K8sSched.Bpf.Bypass
open K8sSched.Bpf.Params K8sSched.Bpf.Ops K8sSched.Bpf.OneCpu K8sSched.Bpf.Places
open K8sSched.Bpf.TaskView K8sSched.Bpf.Ideal
open K8sSched.Lib.WrapClock K8sSched.Lib.FifoQueue K8sSched.Lib.Runs

variable {V τ : Type} [VClock V] [DecidableEq τ]

/-! ## The statement -/

/-- What may happen: no direct local insert while the queue is not empty, at
least 1 ns on the CPU each time, and rewrites that keep every weight within
`MAX_PRIO_WEIGHT` and every budget as it is. -/
def Allowed (m : Machine V τ) : Action τ → Prop
  | .wake _ true => m.dsq = []
  | .sleep => 1 ≤ m.ran
  | .preempt => 1 ≤ m.ran
  | .setMaps maps => ∀ p, (lookupTaskParams maps (m.task p)).2.weight.toNat ≤ 10000 ∧
      (lookupTaskParams maps (m.task p)).2.budgetNs = (m.params p).budgetNs
  | _ => True

instance [Fintype τ] (m : Machine V τ) : ∀ a, Decidable (Allowed m a)
  | .wake _ true => inferInstanceAs (Decidable (_ = _))
  | .sleep => inferInstanceAs (Decidable (_ ≤ _))
  | .preempt => inferInstanceAs (Decidable (_ ≤ _))
  | .setMaps _ => inferInstanceAs (Decidable (∀ _, _))
  | .enable _ | .wake _ false | .pick | .run _ | .expire => .isTrue trivial

def isMoved (p : τ) : Event V τ → Bool
  | .moved q => q = p
  | _ => false

/-- How often `j` is moved out of `K8S_DSQ_ID` before `i` is. -/
def movedAhead (i j : τ) (tr : List (Event V τ)) : Nat :=
  (tr.takeWhile fun e => !isMoved i e).countP (isMoved j)

/-- The virtual time of a task at the start of a run, or where the run enabled it. -/
def StartVtime (m : Machine V τ) (tr : List (Event V τ)) (j : τ) (w : V) : Prop :=
  (j ∈ m.enabled ∧ (m.scx j).dsqVtime = w) ∨ (j ∉ m.enabled ∧ .enabled j w ∈ tr)

/-! ## The slice and the weight during a run -/

theorem taskSlice_congr {tp tp' : TaskParams} (h : tp'.budgetNs = tp.budgetNs) :
    taskSlice tp' = taskSlice tp := by
  unfold taskSlice
  rw [h]

theorem does_sliceOf {m t : Machine V τ} {a : Action τ} {es : List (Event V τ)}
    (hd : Does m a t es) (ha : Allowed m a) (x : τ) : t.sliceOf x = m.sliceOf x := by
  cases a with
  | setMaps maps => cases hd; exact taskSlice_congr (ha x).2
  | _ =>
    obtain ⟨hm, ht⟩ := does_maps hd (by simp)
    exact sliceOf_congr hm ht x

theorem does_weight {m t : Machine V τ} {a : Action τ} {es : List (Event V τ)}
    (hd : Does m a t es) (ha : Allowed m a) (h : ∀ p, (m.params p).weight.toNat ≤ 10000) (x : τ) :
    (t.params x).weight.toNat ≤ 10000 := by
  cases a with
  | setMaps maps => cases hd; exact (ha x).1
  | _ =>
    obtain ⟨hm, ht⟩ := does_maps hd (by simp)
    rw [params_congr hm ht]
    exact h x

/-! ## One task while `i` waits -/

/-- The slice the turn of a task on the CPU began with, or will begin with, is
at least this. -/
def sliceLeft (m : Machine V τ) (x : τ) : Nat :=
  (m.scx x).slice.toNat + if m.curr = some x then min m.ran 1 else 0

/-- The highest virtual time a run from clock `now` reaches while `i` waits. -/
def ceiling (now : Int) : Int := now + 2 ^ 61 + 2 ^ 60

/-- The task `x` has been moved `c` times since the start of the run, where its
virtual time was `w` and the clock `now`; `v` is the virtual time of `i`. -/
structure Paced (now v w : Int) (c : Nat) (m : Machine Int τ) (x : τ) : Prop where
  start : now - 2 ^ 61 ≤ w ∧ w ≤ ceiling now
  low : now - 2 ^ 61 ≤ (m.scx x).dsqVtime
  high : (m.scx x).dsqVtime ≤ ceiling now
  /-- Off the CPU, every turn but one has added to its virtual time. -/
  off : place m x = .asleep ∨ place m x = .queued → w + (c - 1 : Nat) ≤ (m.scx x).dsqVtime
  /-- In its turn, it can still be charged for every ns of its slice. -/
  turn : place m x = .waitsLocal ∨ place m x = .cpu →
    (m.scx x).dsqVtime + sliceLeft m x * 50000000000 ≤ ceiling now ∧
    w + (c - 2 : Nat) ≤ (m.scx x).dsqVtime ∧ (2 ≤ c → sliceLeft m x ≤ (m.sliceOf x).toNat)
  bound : (c : Int) ≤ 1 + max 0 (v - w)

section

omit [VClock V]

theorem countP_isMoved {es : List (Event V τ)} {x : τ} (h : ∀ e ∈ es, eventTask e ≠ x) :
    es.countP (isMoved x) = 0 := by
  refine List.countP_eq_zero.mpr fun e he => ?_
  cases e with
  | moved q => simpa [isMoved, eventTask] using h _ he
  | _ => simp [isMoved]

theorem countP_stopped (x p : τ) (charge : U64) :
    [(.stopped p charge : Event V τ)].countP (isMoved x) = 0 := rfl

theorem sliceLeft_cpu {m : Machine V τ} {x : τ} (h : place m x = .cpu) :
    sliceLeft m x = (m.scx x).slice.toNat + min m.ran 1 := by
  rw [sliceLeft, if_pos (place_cpu.mp h)]

theorem sliceLeft_off {m : Machine V τ} {x : τ} (h : place m x ≠ .cpu) :
    sliceLeft m x = (m.scx x).slice.toNat := by
  rw [sliceLeft, if_neg (fun hc => h (place_cpu.mpr hc)), Nat.add_zero]

end

/-- The end of a turn of at least 1 ns: the charge is covered by the slice the
turn began with, and is not zero if that was a fresh one. -/
theorem Paced.charge {now v w : Int} {c : Nat} {m : Machine Int τ} {x : τ}
    (h : Paced now v w c m x) (hp : place m x = .cpu) (hran : 1 ≤ m.ran)
    (hwe : (m.params x).weight.toNat ≤ 10000) :
    (m.scx x).dsqVtime + (chargeOf m.toSched x).toNat + (m.scx x).slice.toNat * 50000000000
        ≤ ceiling now ∧
      w + (c - 1 : Nat) ≤ (m.scx x).dsqVtime + (chargeOf m.toSched x).toNat ∧
      (2 ≤ c → (m.scx x).slice.toNat ≤ (m.sliceOf x).toNat) := by
  obtain ⟨hcap, hw, hfresh⟩ := h.turn (.inr hp)
  rw [sliceLeft_cpu hp, min_eq_right hran] at hcap hfresh
  have hle : (chargeOf m.toSched x).toNat ≤ 50000000000 := stoppingCharge_le _ _
  refine ⟨by push_cast at hcap; linarith, ?_, fun h2 => by have := hfresh h2; omega⟩
  by_cases h2 : 2 ≤ c
  · have hlt : (m.scx x).slice.toNat < (taskSlice (m.params x)).toNat := hfresh h2
    have hge : 1 ≤ (chargeOf m.toSched x).toNat := one_le_stoppingCharge hlt hwe
    omega
  · omega

omit [VClock V] in
/-- Running uses up the slice, and a turn that has begun counts for 1 ns. -/
theorem sliceLeft_run {m t : Machine V τ} {x : τ} {ns : Nat} (hw : Wf m)
    (hm : place m x = .cpu) (ht : place t x = .cpu)
    (hs : (t.scx x).slice = BitVec.ofNat 64 ((m.scx x).slice.toNat - ns))
    (hr : t.ran = m.ran + ns) : sliceLeft t x ≤ sliceLeft m x := by
  have hone := (hw.running x (place_cpu.mp hm)).2
  have hlt := (m.scx x).slice.isLt
  rw [sliceLeft_cpu hm, sliceLeft_cpu ht, hs, hr]
  simp only [BitVec.toNat_ofNat]
  by_cases hran : m.ran = 0
  · have := hone hran
    omega
  · omega

/-- A step that leaves the virtual time alone and the task on the CPU. -/
theorem Paced.of_cpu {now v w : Int} {c d : Nat} {m t : Machine Int τ} {x : τ}
    (h : Paced now v w c m x) (ht : place t x = .cpu)
    (hv : (t.scx x).dsqVtime = (m.scx x).dsqVtime) (hsl : t.sliceOf x = m.sliceOf x)
    (hcap : (m.scx x).dsqVtime + sliceLeft t x * 50000000000 ≤ ceiling now)
    (hwc : w + (d - 2 : Nat) ≤ (m.scx x).dsqVtime)
    (hfresh : 2 ≤ d → sliceLeft t x ≤ (m.sliceOf x).toNat)
    (hbound : (d : Int) ≤ 1 + max 0 (v - w)) : Paced now v w d t x := by
  refine ⟨h.start, ?_, ?_, by simp [ht], fun _ => ?_, hbound⟩
  · rw [hv]
    exact h.low
  · rw [hv]
    exact h.high
  · rw [hv, hsl]
    exact ⟨hcap, hwc, hfresh⟩

theorem Paced.step {now v w : Int} {c : Nat} {m t : Machine Int τ} {a : Action τ}
    {es : List (Event Int τ)} {x : τ} (h : Paced now v w c m x) (hw : Wf m)
    (hts : TaskStep m x t a es) (ha : Allowed m a) (hsl : t.sliceOf x = m.sliceOf x)
    (hwe : (m.params x).weight.toNat ≤ 10000) (hnow : m.vtimeNow ≤ ceiling now)
    (hon : x ∈ m.enabled) (hq : m.dsq ≠ [])
    (hmove : m.lowestVtime = some x → place t x = .cpu → (m.scx x).dsqVtime ≤ now + 2 ^ 61 ∧
      (c = 0 ∨ ((m.scx x).dsqVtime < v ∧ (m.scx x).slice.toNat ≤ (m.sliceOf x).toNat))) :
    Paced now v w (c + es.countP (isMoved x)) t x := by
  have hslice : scxSliceDfl.toNat = 20000000 := rfl
  cases hts with
  | stay hp hs hr hes =>
    have hleft : sliceLeft t x = sliceLeft m x := by
      by_cases hc : place m x = .cpu
      · rw [sliceLeft_cpu hc, sliceLeft_cpu (hp.trans hc), hs, hr (place_cpu.mp hc)]
      · rw [sliceLeft_off hc, sliceLeft_off (by rw [hp]; exact hc), hs]
    rw [countP_isMoved hes, Nat.add_zero]
    exact ⟨h.start, by rw [hs]; exact h.low, by rw [hs]; exact h.high,
      by rw [hs, hp]; exact h.off, by rw [hs, hp, hleft, hsl]; exact h.turn, h.bound⟩
  | enable hm ht hs => exact absurd hon ((place_absent hw).mp hm)
  | wakeLocal hm ht hs => exact absurd ha hq
  | wakeQueue hm ht hs =>
    have hoff := h.off (.inl hm)
    have hv : (t.scx x).dsqVtime = max (m.scx x).dsqVtime (m.vtimeNow - 5000000) := by
      rw [hs, clamp_int]
    have hlow := h.low
    have hhigh := h.high
    refine ⟨h.start, by omega, by omega, fun _ => ?_, by simp [ht], h.bound⟩
    simp only [List.countP_nil, Nat.add_zero]
    omega
  | resume hm ht hs hr hes =>
    have hleft : sliceLeft t x = sliceLeft m x := by
      rw [sliceLeft_cpu ht, sliceLeft_off (by simp [hm]), hs, hr]
      rfl
    obtain ⟨hcap, hwc, hfresh⟩ := h.turn (.inl hm)
    rw [← hleft] at hcap hfresh
    rw [countP_isMoved hes, Nat.add_zero]
    exact h.of_cpu ht (by rw [hs]) hsl hcap hwc hfresh h.bound
  | @move _ es hm ht hs hr hl hlow hes =>
    obtain ⟨htop, hahead⟩ := hmove hlow ht
    have hoff := h.off (.inr hm)
    have hmax := (hw.waiting x (List.mem_append_right _ (lowest_mem hlow))).2
    have hleft : sliceLeft t x = (m.scx x).slice.toNat := by
      rw [sliceLeft_cpu ht, hs, hr]
      rfl
    have hcount : (Event.moved x :: es).countP (isMoved x) = 1 := by
      rw [List.countP_cons, countP_isMoved hes]
      simp [isMoved]
    rw [hcount]
    refine h.of_cpu ht (by rw [hs]) hsl ?_ (by omega) (fun h2 => ?_) ?_
    · rw [hleft]
      unfold ceiling
      omega
    · rcases hahead with h0 | ⟨-, hfresh⟩
      · omega
      · rwa [hleft]
    · rcases hahead with h0 | ⟨hlt, -⟩
      · omega
      · omega
  | @run ns hm ht hs hr =>
    obtain ⟨hcap, hwc, hfresh⟩ := h.turn (.inr hm)
    have hle : sliceLeft t x ≤ sliceLeft m x := sliceLeft_run hw hm ht (by rw [hs]) hr
    have hcount : List.countP (isMoved x) [Event.ran (V := Int) x ns] = 0 := rfl
    rw [hcount, Nat.add_zero]
    exact h.of_cpu ht (by rw [hs]) hsl (by omega) hwc (fun h2 => hle.trans (hfresh h2)) h.bound
  | sleep hm ht hs =>
    obtain ⟨hcap, hwc, -⟩ := h.charge hm ha hwe
    have hlow := h.low
    rw [countP_stopped, Nat.add_zero]
    have hv : (t.scx x).dsqVtime = (m.scx x).dsqVtime + (chargeOf m.toSched x).toNat := by
      rw [hs, add_int]
    exact ⟨h.start, by omega, by omega, fun _ => by rw [hv]; exact hwc, by simp [ht], h.bound⟩
  | keep hm ht hs h0 =>
    obtain ⟨hcap, hwc, hfresh⟩ := h.charge hm ha hwe
    have hlow := h.low
    rw [countP_stopped, Nat.add_zero]
    have hv : (t.scx x).dsqVtime = (m.scx x).dsqVtime + (chargeOf m.toSched x).toNat := by
      rw [hs, add_int]
    refine ⟨h.start, by omega, by omega, by simp [ht], fun _ => ?_, h.bound⟩
    rw [sliceLeft_off (by simp [ht]), hv, hsl, hs]
    exact ⟨hcap, by omega, hfresh⟩
  | requeue es ha' hm ht hs h0 hes =>
    have hran : 1 ≤ m.ran := by
      have hone := (hw.running x (place_cpu.mp hm)).2
      by_contra hlt
      have := hone (by omega)
      rw [h0] at this
      exact absurd this (by decide)
    obtain ⟨hcap, hwc, -⟩ := h.charge hm hran hwe
    have hlow := h.low
    have hcount : List.countP (isMoved x) (es ++ [Event.stopped x (chargeOf m.toSched x)]) = 0 := by
      rw [List.countP_append, countP_isMoved hes, countP_stopped]
    rw [hcount, Nat.add_zero]
    have hv : (t.scx x).dsqVtime = max ((m.scx x).dsqVtime + (chargeOf m.toSched x).toNat)
        (m.vtimeNow - 5000000) := by
      rw [hs, clamp_int, add_int]
    exact ⟨h.start, by omega, by omega, fun _ => by omega, by simp [ht], h.bound⟩
  | refill hm ht hs hr h0 hl hd => exact absurd hd hq

/-! ## All tasks while `i` waits -/

/-- The run `tr` from `m₀` has not moved `i` yet. What is ahead of `i` in the
queue was there before it and has not been moved; what is behind it came with a
fresh slice. -/
structure Waits (m₀ : Machine Int τ) (i : τ) (tr : List (Event Int τ)) (m : Machine Int τ) :
    Prop where
  wf : Wf m
  weight : ∀ p, (m.params p).weight.toNat ≤ 10000
  now : m₀.vtimeNow ≤ m.vtimeNow ∧ m.vtimeNow ≤ ceiling m₀.vtimeNow
  target : (m.scx i).dsqVtime = (m₀.scx i).dsqVtime ∧
    (m₀.scx i).dsqVtime ≤ m₀.vtimeNow + 2 ^ 61
  unmoved : ∀ e ∈ tr, isMoved i e = false
  queue : ∃ pre post, m.dsq = pre ++ i :: post ∧
    (∀ p ∈ pre, tr.countP (isMoved p) = 0 ∧ (m.scx p).dsqVtime ≤ m₀.vtimeNow + 2 ^ 61) ∧
    ∀ p ∈ post, (m.scx p).slice.toNat ≤ (m.sliceOf p).toNat
  events : ∀ e ∈ tr, eventTask e ∈ m.enabled
  started : m₀.enabled ⊆ m.enabled
  known : ∀ x ∈ m.enabled, ∃ w, StartVtime m₀ tr x w
  paced : ∀ x w, StartVtime m₀ tr x w →
    Paced m₀.vtimeNow (m₀.scx i).dsqVtime w (tr.countP (isMoved x)) m x

section Waits

variable {m₀ m t : Machine Int τ} {i : τ} {tr es : List (Event Int τ)} {a : Action τ}

theorem Waits.enabled (h : Waits m₀ i tr m) {x : τ} {w : Int} (hx : StartVtime m₀ tr x w) :
    x ∈ m.enabled := by
  rcases hx with ⟨hx, -⟩ | ⟨-, hx⟩
  · exact h.started hx
  · exact h.events _ hx

/-- What is moved ahead of `i` was there before it or is strictly before it in
virtual time. -/
theorem Waits.lowest (h : Waits m₀ i tr m) {x : τ} (hlow : m.lowestVtime = some x) (hx : x ≠ i) :
    (m.scx x).dsqVtime ≤ m₀.vtimeNow + 2 ^ 61 ∧ (tr.countP (isMoved x) = 0 ∨
      ((m.scx x).dsqVtime < (m₀.scx i).dsqVtime ∧
        (m.scx x).slice.toNat ≤ (m.sliceOf x).toNat)) := by
  obtain ⟨pre, post, hdsq, hpre, hpost⟩ := h.queue
  obtain ⟨htarget, htop⟩ := h.target
  have hmem : x ∈ m.dsq := lowest_mem hlow
  have hahead : x ∈ pre ∨ x = i ∨ (m.scx x).dsqVtime < (m.scx i).dsqVtime := by
    unfold Sched.lowestVtime at hlow
    rw [hdsq] at hlow
    exact lowest_ahead (fun _ _ _ _ => rfl) hlow
  by_cases hp : x ∈ pre
  · exact ⟨(hpre x hp).2, .inl (hpre x hp).1⟩
  · have hlt : (m.scx x).dsqVtime < (m.scx i).dsqVtime := (hahead.resolve_left hp).resolve_left hx
    have hq : x ∈ post := by
      rw [hdsq] at hmem
      simpa [hp, hx] using hmem
    rw [htarget] at hlt
    exact ⟨by omega, .inr ⟨hlt, hpost x hq⟩⟩

/-- The queue around `i` after a step that leaves `i` in it. -/
theorem Waits.split (h : Waits m₀ i tr m) (hd : Does m a t es) (hi : place t i = .queued) :
    ∃ pre post ins pre' post', m.dsq = pre ++ i :: post ∧ t.dsq = pre' ++ i :: (post' ++ ins) ∧
      (∀ p ∈ pre, tr.countP (isMoved p) = 0 ∧ (m.scx p).dsqVtime ≤ m₀.vtimeNow + 2 ^ 61) ∧
      (∀ p ∈ post, (m.scx p).slice.toNat ≤ (m.sliceOf p).toNat) ∧
      pre' ⊆ pre ∧ post' ⊆ post ∧ ∀ p ∈ ins, p ∉ m.dsq := by
  obtain ⟨pre, post, hdsq, hpre, hpost⟩ := h.queue
  obtain ⟨ins, hins, ht | ⟨q, hlow, hcpu, ht⟩⟩ := does_dsq h.wf hd
  · refine ⟨pre, post, ins, pre, post, hdsq, ?_, hpre, hpost, List.Subset.refl _,
      List.Subset.refl _, hins⟩
    rw [ht, hdsq, List.append_assoc, List.cons_append]
  · have hqi : q ≠ i := by
      rintro rfl
      rw [hcpu] at hi
      cases hi
    by_cases hq : q ∈ pre
    · refine ⟨pre, post, ins, pre.erase q, post, hdsq, ?_, hpre, hpost, List.erase_subset,
        List.Subset.refl _, hins⟩
      rw [ht, hdsq, List.erase_append_left _ hq, List.append_assoc, List.cons_append]
    · refine ⟨pre, post, ins, pre, post.erase q, hdsq, ?_, hpre, hpost, List.Subset.refl _,
        List.erase_subset, hins⟩
      rw [ht, hdsq, List.erase_append_right _ hq, List.erase_cons_tail (by simpa using hqi.symm),
        List.append_assoc, List.cons_append]

theorem Waits.step_queue (h : Waits m₀ i tr m) (hd : Does m a t es) (ha : Allowed m a)
    (hi : place t i = .queued) : ∃ pre post, t.dsq = pre ++ i :: post ∧
      (∀ p ∈ pre, (tr ++ es).countP (isMoved p) = 0 ∧
        (t.scx p).dsqVtime ≤ m₀.vtimeNow + 2 ^ 61) ∧
      ∀ p ∈ post, (t.scx p).slice.toNat ≤ (t.sliceOf p).toNat := by
  have hwt := h.wf.step hd
  obtain ⟨pre, post, ins, pre', post', hdsq, ht, hpre, hpost, hsub, hsub', hins⟩ := h.split hd hi
  have hstays : ∀ p ∈ m.dsq, p ∈ t.dsq → t.scx p = m.scx p ∧ ∀ e ∈ es, eventTask e ≠ p := by
    intro p hp hpt
    rcases (does_taskStep h.wf hd p).of_queued (place_of_dsq h.wf hp) with ⟨-, hs, hes⟩ | ⟨hcpu, -⟩
    · exact ⟨hs, hes⟩
    · rw [place_of_dsq hwt hpt] at hcpu
      cases hcpu
  refine ⟨pre', post' ++ ins, ht, fun p hp => ?_, fun p hp => ?_⟩
  · have hpm := hsub hp
    obtain ⟨hs, hes⟩ := hstays p (by simp [hdsq, hpm]) (by simp [ht, hp])
    rw [List.countP_append, (hpre p hpm).1, countP_isMoved hes, hs]
    exact ⟨rfl, (hpre p hpm).2⟩
  · rw [does_sliceOf hd ha]
    rcases List.mem_append.mp hp with hp | hp
    · have hpm := hsub' hp
      obtain ⟨hs, -⟩ := hstays p (by simp [hdsq, hpm]) (by simp [ht, hp])
      rw [hs]
      exact hpost p hpm
    · have hpt : p ∈ t.dsq := by simp [ht, hp]
      have hnot : place m p ≠ .queued := fun hq => hins p hp ((place_queued h.wf).mp hq)
      rw [(does_taskStep h.wf hd p).of_inserted hnot (place_of_dsq hwt hpt)]

theorem Waits.step_paced (h : Waits m₀ i tr m) (hd : Does m a t es) (ha : Allowed m a)
    (hi : place t i = .queued) (x : τ) (w : Int) (hx : StartVtime m₀ (tr ++ es) x w) :
    Paced m₀.vtimeNow (m₀.scx i).dsqVtime w ((tr ++ es).countP (isMoved x)) t x := by
  have hts := does_taskStep h.wf hd x
  have hold : StartVtime m₀ tr x w →
      Paced m₀.vtimeNow (m₀.scx i).dsqVtime w ((tr ++ es).countP (isMoved x)) t x := by
    intro hx
    have hdsq : m.dsq ≠ [] := by
      obtain ⟨pre, post, hdsq, -⟩ := h.queue
      simp [hdsq]
    rw [List.countP_append]
    refine (h.paced x w hx).step h.wf hts ha (does_sliceOf hd ha x) (h.weight x) h.now.2
      (h.enabled hx) hdsq fun hlow hcpu => h.lowest hlow ?_
    rintro rfl
    rw [hi] at hcpu
    cases hcpu
  rcases hx with ⟨hx, hv⟩ | ⟨hx, hev⟩
  · exact hold (.inl ⟨hx, hv⟩)
  · rcases List.mem_append.mp hev with hev | hev
    · exact hold (.inr ⟨hx, hev⟩)
    · -- `x` is enabled by this very step
      have hnot := (does_events h.wf hd).2 x w hev
      rcases hts.of_absent ((place_absent h.wf).mpr hnot) with ⟨-, hne⟩ | ⟨ht, rfl, hv⟩
      · exact absurd rfl (hne _ hev)
      · obtain rfl : w = m.vtimeNow := by simpa using hev
        have hnone : ∀ e ∈ tr, eventTask e ≠ x := fun e he hex => hnot (hex ▸ h.events e he)
        have hcount : (tr ++ [Event.enabled x m.vtimeNow]).countP (isMoved x) = 0 := by
          rw [List.countP_append, countP_isMoved hnone]
          rfl
        obtain ⟨hlo, hhi⟩ := h.now
        rw [hcount]
        exact ⟨⟨by omega, hhi⟩, by rw [hv]; omega, by rw [hv]; exact hhi, fun _ => by rw [hv]; simp,
          by simp [ht], by omega⟩

omit [DecidableEq τ] in
theorem StartVtime.mono {x : τ} {w : Int} (h : StartVtime m₀ tr x w) :
    StartVtime m₀ (tr ++ es) x w :=
  h.imp_right fun ⟨hx, hev⟩ => ⟨hx, List.mem_append_left _ hev⟩

theorem Waits.step_known (h : Waits m₀ i tr m) (hd : Does m a t es) :
    ∀ x ∈ t.enabled, ∃ w, StartVtime m₀ (tr ++ es) x w := by
  intro x hx
  by_cases hm : x ∈ m.enabled
  · obtain ⟨w, hw⟩ := h.known x hm
    exact ⟨w, hw.mono⟩
  · have hts := (does_taskStep h.wf hd x).of_absent ((place_absent h.wf).mpr hm)
    rcases hts with ⟨hp, -⟩ | ⟨-, rfl, -⟩
    · exact absurd hx ((place_absent (h.wf.step hd)).mp hp)
    · exact ⟨m.vtimeNow, .inr ⟨fun h0 => hm (h.started h0), by simp⟩⟩

/-- A step moves `i`, or `i` goes on waiting. -/
theorem Waits.step (h : Waits m₀ i tr m) (hd : Does m a t es) (ha : Allowed m a) :
    (∃ es', es = .moved i :: es') ∨ Waits m₀ i (tr ++ es) t := by
  have hqi : i ∈ m.dsq := by
    obtain ⟨pre, post, hdsq, -⟩ := h.queue
    simp [hdsq]
  rcases (does_taskStep h.wf hd i).of_queued (place_of_dsq h.wf hqi) with
    ⟨hi, hs, hes⟩ | ⟨-, hmoved⟩
  · have hwt := h.wf.step hd
    have hpaced := h.step_paced hd ha hi
    have hknown := h.step_known hd
    refine .inr ⟨hwt, does_weight hd ha h.weight, ?_, ?_, ?_, h.step_queue hd ha hi, ?_,
      h.started.trans (does_enabled hd), hknown, hpaced⟩
    · rcases does_vtimeNow hd with hn | ⟨p, hc, hb, hn⟩
      · rw [hn]
        exact h.now
      · obtain ⟨w, hw⟩ := hknown p (hwt.on p (by simp [held, hc]))
        have hhigh := (hpaced p w hw).high
        have hlt : m.vtimeNow < (t.scx p).dsqVtime := by simpa [before_int] using hb
        have hlo := h.now.1
        rw [hn]
        omega
    · rw [hs]
      exact h.target
    · intro e he
      rcases List.mem_append.mp he with he | he
      · exact h.unmoved e he
      · cases e with
        | moved q => simpa [isMoved, eventTask] using hes _ he
        | _ => rfl
    · intro e he
      rcases List.mem_append.mp he with he | he
      · exact does_enabled hd (h.events e he)
      · exact (does_events h.wf hd).1 e he
  · exact .inl hmoved

theorem Waits.near (h : Waits m₀ i tr m) :
    Near (m₀.vtimeNow - 2 ^ 61) m.enabled m.toSched := by
  obtain ⟨hlo, hhi⟩ := h.now
  unfold ceiling at hhi
  refine ⟨by unfold window; omega, fun p hp => ?_⟩
  obtain ⟨w, hw⟩ := h.known p hp
  have hlow := (h.paced p w hw).low
  have hhigh := (h.paced p w hw).high
  unfold ceiling at hhigh
  unfold window
  omega

end Waits

/-! ## Runs of the code -/

omit [VClock V] in
theorem movedAhead_unmoved {i j : τ} {tr : List (Event V τ)} (h : ∀ e ∈ tr, isMoved i e = false) :
    movedAhead i j tr = tr.countP (isMoved j) := by
  unfold movedAhead
  rw [List.takeWhile_eq_self_iff.mpr fun e he => by simp [h e he]]

omit [VClock V] in
/-- Once `i` has been moved, nothing is moved ahead of it any more. -/
theorem movedAhead_append {i j : τ} {tr es : List (Event V τ)}
    (h : (∃ e ∈ tr, isMoved i e = true) ∨ ∃ es', es = .moved i :: es') :
    movedAhead i j (tr ++ es) = movedAhead i j tr := by
  unfold movedAhead
  rw [List.takeWhile_append]
  split
  · next hlen =>
    have hall : tr.takeWhile (fun e => !isMoved i e) = tr :=
      (List.takeWhile_prefix _).eq_of_length hlen
    rcases h with ⟨e, he, hm⟩ | ⟨es', rfl⟩
    · have := List.takeWhile_eq_self_iff.mp hall e he
      simp [hm] at this
    · rw [hall]
      simp [isMoved]
  · rfl

section Code

variable {m t u : Machine U64 τ} {i : τ} {tr es : List (Event U64 τ)} {a : Action τ}

/-- Every task has been moved ahead of `i` within its bound. -/
def Bounded (m : Machine U64 τ) (i : τ) (tr : List (Event U64 τ)) : Prop :=
  ∀ j w, StartVtime m tr j w →
    (movedAhead i j tr : Int) ≤ 1 + max 0 ((m.scx i).dsqVtime - w).toInt

/-- A step that moves nothing ahead of `i` keeps the bound, also for a task that
it enables. -/
theorem Bounded.extend (h : Bounded m i tr) (hw : Wf t) (hd : Does t a u es)
    (hev : ∀ e ∈ tr, eventTask e ∈ t.enabled)
    (hahead : ∀ j, movedAhead i j (tr ++ es) = movedAhead i j tr) : Bounded m i (tr ++ es) := by
  intro j w hj
  rw [hahead]
  rcases hj with ⟨hj, hv⟩ | ⟨hj, hmem⟩
  · exact h j w (.inl ⟨hj, hv⟩)
  · rcases List.mem_append.mp hmem with hmem | hmem
    · exact h j w (.inr ⟨hj, hmem⟩)
    · have hnot := (does_events hw hd).2 j w hmem
      have hzero : movedAhead i j tr = 0 := countP_isMoved fun e he hej =>
        hnot (hej ▸ hev e ((List.takeWhile_prefix _).subset he))
      rw [hzero]
      omega

theorem isMoved_wrapEvent (p : τ) (e : Event Int τ) : isMoved p (wrapEvent e) = isMoved p e := by
  cases e <;> rfl

omit [DecidableEq τ] in
theorem eventTask_wrapEvent (e : Event Int τ) : eventTask (wrapEvent e) = eventTask e := by
  cases e <;> rfl

omit [DecidableEq τ] in
theorem startVtime_wrap {m : Machine Int τ} {tr : List (Event Int τ)} {j : τ} {w : U64}
    (h : StartVtime (wrapMachine m) (tr.map wrapEvent) j w) :
    ∃ w', wrap w' = w ∧ StartVtime m tr j w' := by
  rcases h with ⟨hj, hv⟩ | ⟨hj, hev⟩
  · exact ⟨_, hv, .inl ⟨hj, rfl⟩⟩
  · obtain ⟨e, he, heq⟩ := List.mem_map.mp hev
    cases e with
    | enabled p v =>
      obtain ⟨rfl, rfl⟩ : p = j ∧ wrap v = w := by simpa [wrapEvent] using heq
      exact ⟨v, rfl, .inr ⟨hj, he⟩⟩
    | _ => simp [wrapEvent] at heq

theorem Waits.bounded {m₀ m : Machine Int τ} {tr : List (Event Int τ)} (h : Waits m₀ i tr m) :
    Bounded (wrapMachine m₀) i (tr.map wrapEvent) := by
  intro j w hj
  obtain ⟨w', rfl, hw'⟩ := startVtime_wrap hj
  have hp := h.paced j w' hw'
  have hlo : (m₀.scx i).dsqVtime ≥ m₀.vtimeNow - 2 ^ 61 := by
    obtain ⟨pre, post, hdsq, -⟩ := h.queue
    have hi : i ∈ m.enabled :=
      h.wf.on i (List.mem_append_right _ (List.mem_append_right _ (by simp [hdsq])))
    obtain ⟨w, hw⟩ := h.known i hi
    rw [← h.target.1]
    exact (h.paced i w hw).low
  have hcount : movedAhead i j (tr.map wrapEvent) = tr.countP (isMoved j) := by
    rw [movedAhead_unmoved]
    · rw [List.countP_map]
      exact List.countP_congr fun e _ => by simp [isMoved_wrapEvent]
    · intro e he
      obtain ⟨e', he', rfl⟩ := List.mem_map.mp he
      rw [isMoved_wrapEvent]
      exact h.unmoved e' he'
  have hsub : (((wrapMachine m₀).scx i).dsqVtime - wrap w').toInt =
      (m₀.scx i).dsqVtime - w' := by
    have hstart := hp.start
    have htop := h.target.2
    unfold ceiling at hstart
    exact toInt_ofInt_sub (by decide) (by omega) (by omega)
  rw [hcount, hsub]
  exact hp.bound

omit [DecidableEq τ] in
theorem allowed_wrap {m : Machine Int τ} {a : Action τ} (h : Allowed (wrapMachine m) a) :
    Allowed m a := by
  cases a with
  | wake p isIdle => cases isIdle <;> exact h
  | _ => exact h

/-- The run waits for `i` in step with an ideal run, or `i` has been moved. -/
def Tracked (m : Machine U64 τ) (i : τ) (tr : List (Event U64 τ)) (t : Machine U64 τ) : Prop :=
  (∃ tr' t', tr = tr'.map wrapEvent ∧ t = wrapMachine t' ∧ Waits (ideal m) i tr' t') ∨
    ((∃ e ∈ tr, isMoved i e = true) ∧ Wf t ∧ (∀ e ∈ tr, eventTask e ∈ t.enabled) ∧ Bounded m i tr)

theorem Tracked.bounded (h : Tracked m i tr t) : Bounded m i tr := by
  rcases h with ⟨tr', t', rfl, -, hw⟩ | ⟨-, -, -, hb⟩
  · have := hw.bounded
    rwa [wrapMachine_ideal] at this
  · exact hb

theorem Tracked.step (h : Tracked m i tr t) (ha : Allowed t a) (hs : step t a = some (u, es)) :
    Tracked m i (tr ++ es) u := by
  have hd := step_does hs
  have hb := h.bounded
  rcases h with ⟨tr', t', rfl, rfl, hw⟩ | ⟨hm, hw, hev, -⟩
  · have hwt : Wf (wrapMachine t') := wf_wrapMachine.mpr hw.wf
    rw [step_wrap hw.wf hw.near, Option.map_eq_some_iff] at hs
    obtain ⟨⟨u', es'⟩, hs', heq⟩ := hs
    obtain ⟨rfl, rfl⟩ := Prod.mk.inj heq
    rcases hw.step (step_does hs') (allowed_wrap ha) with ⟨es'', rfl⟩ | hw'
    · have hevents : ∀ e ∈ tr'.map wrapEvent, eventTask e ∈ (wrapMachine t').enabled := by
        intro e he
        obtain ⟨e', he', rfl⟩ := List.mem_map.mp he
        rw [eventTask_wrapEvent]
        exact hw.events e' he'
      refine .inr ⟨⟨.moved i, by simp [wrapEvent], by simp [isMoved]⟩, hwt.step hd, ?_, ?_⟩
      · intro e he
        rcases List.mem_append.mp he with he | he
        · exact does_enabled hd (hevents e he)
        · exact (does_events hwt hd).1 e he
      · exact hb.extend hwt hd hevents fun j => movedAhead_append (.inr ⟨_, rfl⟩)
    · exact .inl ⟨tr' ++ es', u', by simp, rfl, hw'⟩
  · obtain ⟨e, he, hei⟩ := hm
    refine .inr ⟨⟨e, List.mem_append_left _ he, hei⟩, hw.step hd, ?_, ?_⟩
    · intro e he
      rcases List.mem_append.mp he with he | he
      · exact does_enabled hd (hev e he)
      · exact (does_events hw hd).1 e he
    · exact hb.extend hw hd hev fun j => movedAhead_append (.inl ⟨e, he, hei⟩)

/-- `i` has just been inserted. -/
theorem waits_start (hw : Wf m) (hi : m.dsq.getLast? = some i)
    (hnear : ∀ p ∈ m.enabled, -2 ^ 61 ≤ ((m.scx p).dsqVtime - m.vtimeNow).toInt ∧
      ((m.scx p).dsqVtime - m.vtimeNow).toInt ≤ 2 ^ 61)
    (hwe : ∀ p, (m.params p).weight.toNat ≤ 10000) : Waits (ideal m) i [] (ideal m) := by
  obtain ⟨pre, hdsq⟩ := List.getLast?_eq_some_iff.mp hi
  have hvt : ∀ p, ((ideal m).scx p).dsqVtime =
      m.vtimeNow.toNat + ((m.scx p).dsqVtime - m.vtimeNow).toInt := fun p => rfl
  have hnow : (ideal m).vtimeNow = m.vtimeNow.toNat := rfl
  have hon : ∀ p ∈ m.dsq, p ∈ m.enabled := fun p hp =>
    hw.on p (List.mem_append_right _ (List.mem_append_right _ hp))
  refine ⟨wf_ideal hw, hwe, ?_, ?_, by simp, ?_, by simp, subset_rfl, ?_, ?_⟩
  · unfold ceiling; omega
  · have := hnear i (hon i (by simp [hdsq]))
    rw [hvt, hnow]
    omega
  · refine ⟨pre, [], hdsq, fun p hp => ⟨rfl, ?_⟩, by simp⟩
    have := hnear p (hon p (by simp [hdsq, hp]))
    rw [hvt, hnow]
    omega
  · exact fun x hx => ⟨_, .inl ⟨hx, rfl⟩⟩
  · rintro x w (⟨hx, rfl⟩ | ⟨-, hx⟩)
    · have hr := hnear x hx
      have hv := hvt x
      have hslice : scxSliceDfl.toNat = 20000000 := rfl
      refine ⟨?_, ?_, ?_, by simp, ?_, ?_⟩
      · unfold ceiling; omega
      · omega
      · unfold ceiling; omega
      · intro hp
        have hleft : sliceLeft (ideal m) x ≤ 20000001 := by
          have hwi := wf_ideal hw
          rcases hp with hp | hp
          · have := (hwi.waiting x (List.mem_append_left _ ((place_local hwi).mp hp))).2
            rw [sliceLeft_off (by simp [hp])]
            omega
          · have := (hwi.running x (place_cpu.mp hp)).1
            rw [sliceLeft_cpu hp]
            omega
        unfold ceiling
        refine ⟨by omega, by simp, by simp⟩
      · simp
        omega
    · simp at hx

/-- Bounded bypass. From any state with all virtual times within `2 ^ 61` of the
clock and `i` just inserted, in every run of allowed steps, every task `j` that
had virtual time `w` then, or started at `w` later, is moved out of `K8S_DSQ_ID`
ahead of `i` at most `1 + max 0 (v - w)` times. -/
theorem bypass_bounded (hw : Wf m) (hi : m.dsq.getLast? = some i)
    (hnear : ∀ p ∈ m.enabled, -2 ^ 61 ≤ ((m.scx p).dsqVtime - m.vtimeNow).toInt ∧
      ((m.scx p).dsqVtime - m.vtimeNow).toInt ≤ 2 ^ 61)
    (hwe : ∀ p, (m.params p).weight.toNat ≤ 10000) (h : Run step Allowed m tr t)
    {j : τ} {w : U64} (hj : StartVtime m tr j w) :
    (movedAhead i j tr : Int) ≤ 1 + max 0 ((m.scx i).dsqVtime - w).toInt := by
  have h0 : Tracked m i [] m :=
    .inl ⟨[], ideal m, rfl, (wrapMachine_ideal m).symm, waits_start hw hi hnear hwe⟩
  have ht : Tracked m i tr t :=
    h.invariant (I := Tracked m i) h0 fun _ _ _ _ _ ht ha hs => ht.step ha hs
  exact ht.bounded j w hj

end Code

/-- A task 100 behind goes ahead twice: it is charged 40 for its first turn. -/
theorem bypass_bounded_twice :
    ∃ (m t : Machine U64 (Fin 2)) (tr : List (Event U64 (Fin 2))), Run step Allowed m tr t ∧
      m.dsq.getLast? = some 0 ∧ movedAhead 0 1 tr = 2 ∧
      (movedAhead 0 1 tr : Int) ≤
        1 + max 0 ((m.scx 0).dsqVtime - (m.scx 1).dsqVtime).toInt := by
  have h : Run step Allowed ({ k8sInit ⟨∅, ∅⟩ fun _ => ⟨0, none⟩ with
      scx := fun p => if p = 0 then ⟨100, 5000000⟩ else ⟨0, 0⟩, dsq := [0], enabled := {0, 1}
      curr := none, ran := 0 } : Machine U64 (Fin 2)) _ _ :=
    Run.of_isSome [.wake 1 false, .pick, .run 4, .sleep, .wake 1 false, .pick, .run 1, .sleep, .pick]
      (by decide) (by decide)
  exact ⟨_, _, _, h, by decide, by decide,
    bypass_bounded ⟨by decide, by decide, by decide, by decide⟩ (by decide) (by decide) (by decide) h
      (.inl ⟨by decide, rfl⟩)⟩

end K8sSched.Bpf.Bypass
