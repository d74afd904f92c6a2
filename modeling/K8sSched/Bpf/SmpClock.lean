import K8sSched.Bpf.SmpPlaces
import K8sSched.Lib.ClockWindow

/-! # The clock that several CPUs write

`k8s_running` reads `vtime_now` in one step and writes it in another, so a CPU
may overwrite a later clock with an earlier one. How far back the clock can go
is given by what the CPUs hold between the two steps: the clock and these values
have a floor that never falls, and no task is inserted more than a default slice
behind it. -/

namespace K8sSched.Bpf.SmpClock
open K8sSched.Bpf.Params K8sSched.Bpf.Ops K8sSched.Bpf.Smp K8sSched.Bpf.SmpPlaces
open K8sSched.Lib.WrapClock K8sSched.Lib.ClockWindow K8sSched.Lib.Runs

variable {κ τ : Type} [DecidableEq κ] [DecidableEq τ]

/-- A word of the window that is not below the floor. -/
def From (base : U64) (floor : Int) (x : U64) : Prop :=
  floor ≤ offset base x ∧ offset base x ≤ 2 ^ 61

/-- The clock, what is about to be written to it and what has been read from it
are not below the floor. -/
structure Floor (base : U64) (floor : Int) (s : System κ τ) : Prop where
  clock : From base floor s.vtimeNow
  store : ∀ c vtime, s.pc c = .store vtime → From base floor vtime
  insert : ∀ c p found tp now pick, s.pc c = .insert p found tp now pick → From base floor now

/-- The virtual times of the tasks are within the window. -/
def TasksNear (base : U64) (s : System κ τ) : Prop :=
  ∀ p ∈ s.enabled, Within base (s.scx p).dsqVtime

/-! ## The clamp -/

theorem offset_clamp {base now vtime : U64} (hnow : Within base now) (hv : Within base vtime) :
    offset base (clampVtime now vtime) =
      max (offset base vtime) (offset base now - 5000000) := by
  have hsub : offset base (VClock.sub now defaultSliceNs) = offset base now - 5000000 :=
    offset_sub hnow (by decide)
  obtain ⟨hn1, hn2⟩ := hnow
  obtain ⟨hv1, hv2⟩ := hv
  have hbefore : VClock.before vtime (VClock.sub now defaultSliceNs) =
      decide (offset base vtime < offset base (VClock.sub now defaultSliceNs)) :=
    before_offset (by omega) (by omega)
  unfold clampVtime
  rw [hbefore, hsub]
  by_cases hlt : offset base vtime < offset base now - 5000000
  · rw [if_pos (by simpa using hlt), hsub]
    omega
  · rw [if_neg (by simpa using hlt)]
    omega

/-! ## One step -/

section Step

variable {base : U64} {floor : Int} {s t : System κ τ} {a : Smp.Action κ τ} {es : List (Event κ τ)}

theorem From.within (hfloor : -2 ^ 61 ≤ floor) {x : U64} (h : From base floor x) : Within base x :=
  ⟨hfloor.trans h.1, h.2⟩

omit [DecidableEq τ] in
/-- The callback a CPU goes on with holds nothing below the floor. -/
theorem Floor.of_pc (h : Floor base floor s) (hnow : From base floor t.vtimeNow) (c : κ)
    (pc : Pc τ) (hpc : t.pc = Function.update s.pc c pc)
    (hstore : ∀ vtime, pc = .store vtime → From base floor vtime)
    (hinsert : ∀ p found tp now pick, pc = .insert p found tp now pick → From base floor now) :
    Floor base floor t where
  clock := hnow
  store := by
    intro c' vtime hc'
    by_cases hc : c' = c
    · subst hc
      rw [hpc, Function.update_self] at hc'
      exact hstore vtime hc'
    · rw [hpc, Function.update_of_ne hc] at hc'
      exact h.store c' vtime hc'
  insert := by
    intro c' p found tp now pick hc'
    by_cases hc : c' = c
    · subst hc
      rw [hpc, Function.update_self] at hc'
      exact hinsert p found tp now pick hc'
    · rw [hpc, Function.update_of_ne hc] at hc'
      exact h.insert c' p found tp now pick hc'

omit [DecidableEq κ] [DecidableEq τ] in
theorem Floor.congr (h : Floor base floor s) (hnow : t.vtimeNow = s.vtimeNow) (hpc : t.pc = s.pc) :
    Floor base floor t where
  clock := by rw [hnow]; exact h.clock
  store := by rw [hpc]; exact h.store
  insert := by rw [hpc]; exact h.insert

theorem Floor.step (h : Floor base floor s) (hfloor : -2 ^ 61 ≤ floor) (hw : Wf s)
    (hnear : TasksNear base s) (hd : Does s a t es) : Floor base floor t := by
  cases hd with
  | enable | wakeLocal | run | sleep | preemptKeep | refill | setMaps => exact h.congr rfl rfl
  | wakeQueue | balanceLocal | balanceMoved | preemptQueue | expireLocal | expireMoved | lookup
  | pick | behind => exact h.of_pc h.clock _ _ rfl (by simp) (by simp)
  | clamp hpc =>
    refine h.of_pc h.clock _ _ rfl (by simp) fun p found tp now pick heq => ?_
    simp only [Pc.insert.injEq] at heq
    exact heq.2.2.2.1 ▸ h.clock
  | @insert c p found pick tp now hpc =>
    refine h.of_pc h.clock _ _ rfl ?_ ?_
    · cases pick <;> simp
    · cases pick <;> simp
  | @ahead c p hpc hb =>
    -- the value about to be written is above the clock that was read
    have hcur := hw.pcOk c
    rw [hpc] at hcur
    have hp := hnear p (hw.enabled_of_at (l := .cpu c) hcur (by simp))
    have hn := h.clock.within hfloor
    obtain ⟨hp1, hp2⟩ := hp
    obtain ⟨hn1, hn2⟩ := hn
    have hbefore : VClock.before s.vtimeNow (s.scx p).dsqVtime =
        decide (offset base s.vtimeNow < offset base (s.scx p).dsqVtime) :=
      before_offset (by omega) (by omega)
    rw [hbefore, decide_eq_true_eq] at hb
    refine h.of_pc h.clock _ _ rfl (fun vtime heq => ?_) (by simp)
    cases heq
    have hlo := h.clock.1
    exact ⟨by omega, hp2⟩
  | store hpc => exact h.of_pc (h.store _ _ hpc) _ _ rfl (by simp) (by simp)

theorem Floor.inserted (h : Floor base floor s) (hfloor : -2 ^ 61 ≤ floor) (hw : Wf s)
    (hnear : TasksNear base s) (hd : Does s a t es) {c : κ} {p : τ} {found : Bool}
    {slice vtime : U64} (he : .inserted c p found slice vtime ∈ es) :
    floor - 5000000 ≤ offset base vtime := by
  cases hd with
  | @insert c' p' found' pick tp now hpc =>
    simp only [List.mem_singleton, Event.inserted.injEq] at he
    obtain ⟨-, -, -, -, rfl⟩ := he
    have hat : At s p' (.enqueued c') := by rw [At, hpc]; rfl
    have hp := hnear p' (hw.enabled_of_at hat (by simp))
    have hnow := h.insert _ _ _ _ _ _ hpc
    rw [offset_clamp (hnow.within hfloor) hp]
    have hlo := hnow.1
    omega
  | _ => simp at he

end Step

/-! ## Runs -/

/-- With the tasks' virtual times within the window, however the callbacks
interleave: a floor of the clock, of what the CPUs are about to write to it and of
what they have read of it in `k8s_enqueue` stays a floor of the clock, and every
task inserted is at most a default slice below it. -/
theorem clock_floor {base : U64} {floor : Int} (hfloor : -2 ^ 61 ≤ floor) {s t : System κ τ}
    {tr : List (Event κ τ)} (hw : Wf s) (hs : Floor base floor s)
    (h : Run step (fun s _ => TasksNear base s) s tr t) :
    floor ≤ offset base t.vtimeNow ∧ ∀ c p found slice vtime,
      .inserted c p found slice vtime ∈ tr → floor - 5000000 ≤ offset base vtime := by
  have hinv := h.invariant (I := fun tr t => Wf t ∧ Floor base floor t ∧
      ∀ c p found slice vtime, .inserted c p found slice vtime ∈ tr →
        floor - 5000000 ≤ offset base vtime) ⟨hw, hs, by simp⟩ ?_
  · exact ⟨hinv.2.1.clock.1, hinv.2.2⟩
  · intro tr s a t es hI hnear hstep
    obtain ⟨hw, hs, htr⟩ := hI
    have hd := step_does hstep
    refine ⟨hw.step hd, hs.step hfloor hw hnear hd, fun c p found slice vtime he => ?_⟩
    rcases List.mem_append.mp he with he | he
    · exact htr c p found slice vtime he
    · exact hs.inserted hfloor hw hnear hd he

/-- Two tasks with virtual times 60 and 100 get a CPU each; the CPU of the first
has read the clock when the CPU of the second writes it. -/
def overtaking : List (Smp.Action Bool Bool) :=
  [.enable true true, .enable true false, .wake true true (some true), .balance true,
    .proceed true, .proceed true, .run true 6, .sleep true,
    .wake true false (some true), .balance true, .proceed true, .proceed true, .run true 10,
    .sleep true, .wake true true (some true), .wake false false (some false),
    .balance true, .proceed true, .proceed true,
    .balance false, .proceed false, .proceed false, .proceed false]

def twoCpus : System Bool Bool := boot ⟨∅, ∅⟩ (fun _ => ⟨0, none⟩) fun _ _ => true

instance (base : U64) (s : System Bool Bool) : Decidable (TasksNear base s) :=
  inferInstanceAs (Decidable (∀ p ∈ s.enabled, _))

/-- The clock is 100, and the first CPU is about to write 60. -/
def overtaken : System Bool Bool := ((exec step twoCpus overtaking).get (by decide)).1

theorem overtaken_wf : Wf overtaken := by
  have h : Run step (fun _ _ => True) twoCpus _ overtaken :=
    Run.of_isSome overtaking (allSteps_of_forall _ fun _ _ _ => trivial) (by decide)
  exact run_wf h (boot_wf _ _ _)

theorem overtaken_floor : Floor 0 60 overtaken where
  clock := by unfold From; decide
  store := by
    intro c vtime hc
    cases c with
    | true =>
      have hpc : overtaken.pc true = .store 60 := by decide
      cases hpc.symm.trans hc
      unfold From
      decide
    | false =>
      have hpc : overtaken.pc false = .outside := by decide
      cases hpc.symm.trans hc
  insert := by
    intro c p found tp now pick hc
    cases c with
    | true =>
      have hpc : overtaken.pc true = .store 60 := by decide
      cases hpc.symm.trans hc
    | false =>
      have hpc : overtaken.pc false = .outside := by decide
      cases hpc.symm.trans hc

/-- The clock goes back to 60 and not below, and the task is inserted near it. -/
theorem clock_floor_overtaken :
    ∃ (tr : List (Event Bool Bool)) (t : System Bool Bool),
      Run step (fun s _ => TasksNear 0 s) overtaken tr t ∧
      overtaken.vtimeNow = 100 ∧ t.vtimeNow = 60 ∧ 60 ≤ offset 0 t.vtimeNow ∧
      .inserted true true false 5000000 60 ∈ tr ∧ 60 - 5000000 ≤ offset 0 60 := by
  have h : Run step (fun s _ => TasksNear 0 s) overtaken _ _ :=
    Run.of_isSome [.proceed true, .sleep true, .wake true true none, .proceed true, .proceed true,
      .proceed true] (by decide) (by decide)
  have hins : Event.inserted true true false 5000000 60 ∈ ((exec step overtaken [.proceed true,
      .sleep true, .wake true true none, .proceed true, .proceed true, .proceed true]).get
        (by decide)).2 := by decide
  obtain ⟨hclock, hinserted⟩ := clock_floor (by decide) overtaken_wf overtaken_floor h
  exact ⟨_, _, h, by decide, by decide, hclock, hins, hinserted _ _ _ _ _ hins⟩

end K8sSched.Bpf.SmpClock
