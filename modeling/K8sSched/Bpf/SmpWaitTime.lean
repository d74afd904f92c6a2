import K8sSched.Bpf.SmpBypass

/-! # How long others run while a task waits

A task that a CPU moves out of `K8S_DSQ_ID` ahead of a waiting one runs at most
for the slice it was inserted with, of at most 5 ms: the kernel refills a slice
only on a CPU with nothing else to run, which no CPU of the waiting task is. With
the bound on how often the others go ahead, this bounds how long each of them
runs there. -/

namespace K8sSched.Bpf.SmpWaitTime
open K8sSched.Bpf.Params K8sSched.Bpf.Ops K8sSched.Bpf.Smp K8sSched.Bpf.SmpPlaces
open K8sSched.Bpf.SmpTaskView K8sSched.Bpf.SmpClock K8sSched.Bpf.SmpBypass
open K8sSched.Lib.WrapClock K8sSched.Lib.ClockWindow K8sSched.Lib.Runs

variable {κ τ : Type} [DecidableEq κ] [DecidableEq τ]

/-- How long the task ran on one of the given CPUs in an event. -/
def ranOn (cpus : κ → Bool) (p : τ) : Event κ τ → Nat
  | .ran c q ns => if q = p && cpus c then ns else 0
  | _ => 0

def timeOn (cpus : κ → Bool) (p : τ) (tr : List (Event κ τ)) : Nat := (tr.map (ranOn cpus p)).sum

/-- The task woke up on one of the given CPUs, past the queue. -/
def directTo (cpus : κ → Bool) (p : τ) : Event κ τ → Bool
  | .direct _ c q _ => q = p && cpus c
  | _ => false

/-- The kernel takes a task off its CPU once its slice is used up. -/
def NoOverrun (s : System κ τ) : Smp.Action κ τ → Prop
  | .run c ns => ∀ p, s.curr c = some p → ns ≤ (s.scx p).slice.toNat
  | _ => True

/-- What is left of the slice of a task that is on one of the given CPUs or goes
there next. -/
def left (cpus : κ → Bool) (s : System κ τ) (x : τ) : Place κ → Nat
  | .waits c => if cpus c then (s.scx x).slice.toNat else 0
  | .cpu c => if cpus c then (s.scx x).slice.toNat else 0
  | _ => 0

/-- No task waits with more than a default slice. -/
def QueuedSlices (s : System κ τ) : Prop := ∀ p ∈ s.dsq, (s.scx p).slice.toNat ≤ 5000000

section Step

variable {cpus : κ → Bool} {s t : System κ τ} {x : τ} {a : Smp.Action κ τ} {es : List (Event κ τ)}

section

omit [DecidableEq κ]

@[simp] theorem timeOn_nil : timeOn cpus x ([] : List (Event κ τ)) = 0 := rfl

@[simp] theorem timeOn_cons (e : Event κ τ) (es : List (Event κ τ)) :
    timeOn cpus x (e :: es) = ranOn cpus x e + timeOn cpus x es := by
  simp [timeOn]

@[simp] theorem timeOn_append (tr es : List (Event κ τ)) :
    timeOn cpus x (tr ++ es) = timeOn cpus x tr + timeOn cpus x es := by
  simp [timeOn]

/-- A task runs only in events about it. -/
theorem timeOn_eq_zero (h : ∀ e ∈ es, taskOf e ≠ x) : timeOn cpus x es = 0 := by
  refine List.sum_eq_zero fun n hn => ?_
  obtain ⟨e, he, rfl⟩ := List.mem_map.mp hn
  cases e with
  | ran c q ns =>
    have hne : q ≠ x := h _ he
    simp [ranOn, hne]
  | _ => rfl

end

/-- What is inserted has the slice of its parameters. -/
theorem QueuedSlices.step (h : QueuedSlices s) (hw : Wf s) (hd : Does s a t es) :
    QueuedSlices t := by
  have hwt := hw.step hd
  intro p hp
  by_cases hps : p ∈ s.dsq
  · rw [(queued_stays hw hwt hd hps hp).1]
    exact h p hps
  · cases does_dsq hd with
    | same ht => exact absurd (ht ▸ hp) hps
    | moved he hat ht => exact absurd (List.mem_of_mem_erase (ht ▸ hp)) hps
    | @inserted c q found pick tp now hpc ht hs =>
      rw [ht, List.mem_append, List.mem_singleton] at hp
      rw [hp.resolve_left hps, hs]
      exact taskSlice_le tp

/-- Running on one of the CPUs comes out of the slice, and what is added to the
slice was moved or woken there. -/
theorem spent_step (hw : Wf s) (hwt : Wf t) (hts : TaskStep s x t a es) (hok : NoOverrun s a)
    (hq : QueuedSlices s) (hbusy : ∀ c, cpus c → s.lowestOn c ≠ none) {l l' : Place κ}
    (hl : At s x l) (hl' : At t x l') :
    timeOn cpus x es + left cpus t x l' ≤ left cpus s x l +
      5000000 * (es.countP (movedTo cpus x) + es.countP (directTo cpus x)) := by
  have hfrom : ∀ {k : Place κ}, At s x k → l = k := fun hk => at_unique hw hk hl
  have hto : ∀ {k : Place κ}, At t x k → l' = k := fun hk => at_unique hwt hk hl'
  cases hts with
  | stay hat hs hr hes =>
    rw [timeOn_eq_zero hes, hfrom ((hat l').mp hl')]
    have hleft : left cpus t x l' = left cpus s x l' := by cases l' <;> simp [left, hs]
    omega
  | enable hm ht hs => simp [hto ht, left, ranOn]
  | wakeQueue hm ht hs => simp [hto ht, left]
  | @wakeLocal c d hm ht hs =>
    have hle : (s.sliceOf x).toNat ≤ 5000000 := taskSlice_le _
    rw [hto ht]
    by_cases hd : cpus d
    · have hcount : [Event.direct c d x (s.sliceOf x)].countP (directTo cpus x) = 1 := by
        simp [directTo, hd]
      have hleft : left cpus t x (.waits d) = (s.sliceOf x).toNat := by simp [left, hd, hs]
      have htime : timeOn cpus x [.direct c d x (s.sliceOf x)] = 0 := rfl
      rw [hcount, hleft, htime]
      omega
    · simp [left, ranOn, hd]
  | @move _ es c hm ht hs hlow hes =>
    -- the task takes along the slice it was inserted with
    have hle := hq x hm
    have htime : ranOn cpus x (.moved c x) = 0 := rfl
    rw [timeOn_cons, htime, timeOn_eq_zero hes, hto ht]
    by_cases hc : cpus c
    · have hcount : 1 ≤ (Event.moved c x :: es).countP (movedTo cpus x) :=
        List.countP_pos_iff.mpr ⟨_, List.mem_cons_self, by simp [movedTo, hc]⟩
      have hleft : left cpus t x (.waits c) = (s.scx x).slice.toNat := by simp [left, hc, hs]
      rw [hleft]
      omega
    · simp [left, hc]
  | pick hm ht hs hr => simp [hfrom hm, hto ht, left, hs]
  | @run c ns hm ht hs hr =>
    have hns := hok x hm
    rw [hfrom hm, hto ht]
    by_cases hc : cpus c
    · have hlt : (s.scx x).slice.toNat - ns < 2 ^ 64 := by
        have := (s.scx x).slice.isLt
        omega
      have htime : ranOn cpus x (.ran c x ns) = ns := by simp [ranOn, hc]
      simp only [timeOn_cons, timeOn_nil, htime, left, hc, if_true, hs, BitVec.toNat_ofNat,
        Nat.mod_eq_of_lt hlt]
      omega
    · simp [left, ranOn, hc]
  | sleep hm ht hs => simp [hto ht, left, ranOn]
  | keep hm ht hs =>
    unfold Charged at hs
    simp [hfrom hm, hto ht, left, ranOn, hs]
  | stop es hm ht hs h0 hes => simp [timeOn_eq_zero hes, hto ht, left, ranOn]
  | insert hpc hm ht hs => simp [hto ht, left, ranOn]
  | @refill c hm ht hs hlow =>
    -- `SCX_SLICE_DFL` is given only where the queue has nothing to run
    have hc : ¬ cpus c := fun hc => hbusy c hc hlow
    simp [hto ht, left, ranOn, hc]

end Step

/-! ## Runs -/

/-- While `i` waits: what `j` has run on the CPUs of `i`, and what it still holds
there, is what it held when the wait began and a slice for each time it was moved
or woken there. -/
structure Spent (base : U64) (s₀ : System κ τ) (i j : τ) (l₀ : Place κ) (tr : List (Event κ τ))
    (s : System κ τ) : Prop where
  waits : Waits base s₀ i tr s
  queued : QueuedSlices s
  spent : ∀ l, At s j l → timeOn (s₀.allowed i) j tr + left (s₀.allowed i) s j l ≤
    left (s₀.allowed i) s₀ j l₀ + 5000000 *
      (tr.countP (movedTo (s₀.allowed i) j) + tr.countP (directTo (s₀.allowed i) j))

section Run

variable {base : U64} {s₀ s t : System κ τ} {i j : τ} {l₀ : Place κ} {tr es : List (Event κ τ)}
  {a : Smp.Action κ τ}

theorem Spent.step (h : Spent base s₀ i j l₀ tr s) (hd : Does s a t es) (ha : Allowed base s a)
    (hok : NoOverrun s a) (hmoved : ∀ c, .moved c i ∉ es) :
    Spent base s₀ i j l₀ (tr ++ es) t := by
  have hw := h.waits.wf
  refine ⟨h.waits.step hd ha hmoved, h.queued.step hw hd, fun l' hl' => ?_⟩
  obtain ⟨place, hfits⟩ := hw.fits
  have hl : At s j (place j) := (hfits.at_iff j _).mpr rfl
  have hold := h.spent (place j) hl
  have hnew := spent_step hw (hw.step hd) (does_taskStep hw hd j) hok h.queued
    (fun c hc => h.waits.busy hc) hl hl'
  rw [timeOn_append, List.countP_append, List.countP_append]
  omega

end Run

/-! ## A run -/

instance (s : System Bool Bool) : ∀ a, Decidable (NoOverrun s a)
  | .run c ns => inferInstanceAs (Decidable (∀ p, s.curr c = some p → ns ≤ (s.scx p).slice.toNat))
  | .sleep _ | .preempt _ | .setMaps _ | .enable _ _ | .wake _ _ _ | .balance _ | .expire _
  | .proceed _ => inferInstanceAs (Decidable True)

end K8sSched.Bpf.SmpWaitTime
