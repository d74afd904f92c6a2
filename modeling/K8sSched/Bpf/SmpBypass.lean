import K8sSched.Bpf.SmpTaskView
import K8sSched.Bpf.SmpClock
import K8sSched.Bpf.Bypass

/-! # Bounded bypass on several CPUs

While a task `i` waits in `K8S_DSQ_ID`, the CPUs it may run on move every other
task ahead of it a bounded number of times, whatever the others do and however
the clock is raced. Such a CPU passes `i` only for a task queued before it or
strictly below it in virtual time, and keeps that task until it has been charged
for the turn. -/

namespace K8sSched.Bpf.SmpBypass
open K8sSched.Bpf.Params K8sSched.Bpf.Ops K8sSched.Bpf.Smp K8sSched.Bpf.SmpPlaces
open K8sSched.Bpf.SmpTaskView K8sSched.Bpf.SmpClock
open K8sSched.Lib.WrapClock K8sSched.Lib.ClockWindow K8sSched.Lib.FifoQueue K8sSched.Lib.Runs

variable {κ τ : Type} [DecidableEq κ] [DecidableEq τ]

/-! ## The statement -/

/-- What may happen: the virtual times stay within the window, a task that leaves
its CPU early has run for at least 1 ns, and rewrites keep every weight within
`MAX_PRIO_WEIGHT` and every budget as it is. -/
def Allowed (base : U64) (s : System κ τ) (a : Smp.Action κ τ) : Prop :=
  TasksNear base s ∧ match a with
    | .sleep c => 1 ≤ s.ran c
    | .preempt c => 1 ≤ s.ran c
    | .setMaps maps => ∀ p, (lookupTaskParams maps (s.task p)).2.weight.toNat ≤ 10000 ∧
        (lookupTaskParams maps (s.task p)).2.budgetNs = (s.params p).budgetNs
    | _ => True

/-- The task was moved to one of the given CPUs. -/
def movedTo (cpus : κ → Bool) (p : τ) : Event κ τ → Bool
  | .moved c q => q = p && cpus c
  | _ => false

/-- The virtual time of a task at the start of a run, or where the run enabled it. -/
def StartVtime (s : System κ τ) (tr : List (Event κ τ)) (j : τ) (w : U64) : Prop :=
  (j ∈ s.enabled ∧ (s.scx j).dsqVtime = w) ∨ (j ∉ s.enabled ∧ .enabled j w ∈ tr)

/-- What a callback in progress has read gives the slices the maps give. -/
def SlicesRead (s : System κ τ) : Prop :=
  ∀ c, match s.pc c with
    | .clamp p _ tp _ => taskSlice tp = s.sliceOf p
    | .insert p _ tp _ _ => taskSlice tp = s.sliceOf p
    | _ => True

/-! ## The parameters during a run -/

section Params

variable {base : U64} {s t : System κ τ} {a : Smp.Action κ τ} {es : List (Event κ τ)}

/-- Only the agent writes the maps, and no step changes what a task is. -/
theorem does_allowed (hd : Does s a t es) : t.allowed = s.allowed := by
  cases hd <;> rfl

theorem does_sliceOf (hd : Does s a t es) (ha : Allowed base s a) (x : τ) :
    t.sliceOf x = s.sliceOf x := by
  cases a with
  | setMaps maps =>
    cases hd
    exact Bypass.taskSlice_congr (ha.2 x).2
  | _ =>
    obtain ⟨hm, ht⟩ := does_maps hd (by simp)
    simp only [System.sliceOf, System.params, hm, ht]

theorem does_weight (hd : Does s a t es) (ha : Allowed base s a)
    (h : ∀ p, (s.params p).weight.toNat ≤ 10000) (x : τ) : (t.params x).weight.toNat ≤ 10000 := by
  cases a with
  | setMaps maps => cases hd; exact (ha.2 x).1
  | _ =>
    obtain ⟨hm, ht⟩ := does_maps hd (by simp)
    simp only [System.params, hm, ht]
    exact h x

theorem SlicesRead.step (h : SlicesRead s) (hd : Does s a t es) (ha : Allowed base s a) :
    SlicesRead t := by
  have hsl := does_sliceOf hd ha
  intro c'
  have hold := h c'
  simp only [hsl]
  cases hd with
  | enable | wakeLocal | run | sleep | preemptKeep | refill | setMaps => exact hold
  | @wakeQueue c p | @balanceLocal c | @balanceMoved c p | @preemptQueue c p | @expireLocal c p
  | @expireMoved c p | @lookup c p | @pick c p | @ahead c p | @behind c p | @store c =>
    by_cases hc : c' = c
    · subst hc
      simp <;> rfl
    · simpa [hc] using hold
  | @clamp c p found pick tp hpc =>
    by_cases hc : c' = c
    · subst hc
      rw [hpc] at hold
      simpa using hold
    · simpa [hc] using hold
  | @insert c p found pick tp now hpc =>
    by_cases hc : c' = c
    · subst hc
      cases pick <;> simp
    · simpa [hc] using hold

end Params

/-! ## One task while `i` waits -/

section Paced

variable {base : U64} {cpus : κ → Bool} {v w : Int} {n : Nat} {s t : System κ τ} {x : τ}
  {a : Smp.Action κ τ} {es : List (Event κ τ)}

/-- Every turn but one has added to the virtual time. -/
def Off (base : U64) (w : Int) (n : Nat) (s : System κ τ) (x : τ) : Prop :=
  w + (n - 1 : Nat) ≤ offset base (s.scx x).dsqVtime

/-- The turn has not been charged yet; from the second on it began with a fresh
slice, of which `used` is gone already. -/
def Turn (base : U64) (w : Int) (n used : Nat) (s : System κ τ) (x : τ) : Prop :=
  w + (n - 2 : Nat) ≤ offset base (s.scx x).dsqVtime ∧
    (2 ≤ n → (s.scx x).slice.toNat + used ≤ (s.sliceOf x).toNat)

/-- The task `x`, in the given place, has been moved `n` times to one of the CPUs
since its virtual time was `w`. -/
def PacedAt (base : U64) (cpus : κ → Bool) (w : Int) (n : Nat) (s : System κ τ) (x : τ) :
    Place κ → Prop
  | .waits c => if cpus c then Turn base w n 0 s x else Off base w n s x
  | .cpu c => if cpus c then Turn base w n (min (s.ran c) 1) s x else Off base w n s x
  | _ => Off base w n s x

/-- What holds of a task wherever it is, and how often it was moved while the
virtual time of `i` was `v`. -/
structure Paced (base : U64) (cpus : κ → Bool) (v w : Int) (n : Nat) (s : System κ τ) (x : τ) :
    Prop where
  place : ∀ l, At s x l → PacedAt base cpus w n s x l
  bound : (n : Int) ≤ 1 + max 0 (v - w)

omit [DecidableEq κ] [DecidableEq τ] in
theorem Off.turn (h : Off base w n s x) {used : Nat}
    (hs : 2 ≤ n → (s.scx x).slice.toNat + used ≤ (s.sliceOf x).toNat) : Turn base w n used s x := by
  unfold Off at h
  exact ⟨by omega, hs⟩

omit [DecidableEq κ] [DecidableEq τ] in
theorem Off.mono (h : Off base w n s x)
    (hle : offset base (s.scx x).dsqVtime ≤ offset base (t.scx x).dsqVtime) : Off base w n t x :=
  h.trans hle

omit [DecidableEq κ] in
theorem countP_movedTo (h : ∀ c, .moved c x ∉ es) : es.countP (movedTo cpus x) = 0 := by
  refine List.countP_eq_zero.mpr fun e he => ?_
  cases e with
  | moved c q =>
    have hq : q ≠ x := by
      rintro rfl
      exact h c he
    simp [movedTo, hq]
  | _ => simp [movedTo]

section

omit [DecidableEq κ] [DecidableEq τ]

theorem moved_notMem (h : ∀ e ∈ es, taskOf e ≠ x) (c : κ) : .moved c x ∉ es :=
  fun hc => h _ hc rfl

/-- The charge moves the virtual time up, and by at least one if some of a fresh
slice is gone. -/
theorem offset_charged (hnear : Within base (s.scx x).dsqVtime) (hs : Charged s t x) :
    offset base (t.scx x).dsqVtime = offset base (s.scx x).dsqVtime + (chargeOf s x).toNat := by
  have hle : (chargeOf s x).toNat ≤ 50000000000 := stoppingCharge_le _ _
  rw [hs]
  exact offset_add hnear (by omega)

theorem Turn.off_of_charged (h : Turn base w n 1 s x) (hnear : Within base (s.scx x).dsqVtime)
    (hwe : (s.params x).weight.toNat ≤ 10000) (hs : Charged s t x) : Off base w n t x := by
  obtain ⟨hwn, hfresh⟩ := h
  unfold Off
  rw [offset_charged hnear hs]
  by_cases h2 : 2 ≤ n
  · have hlt : (s.scx x).slice.toNat < (taskSlice (s.params x)).toNat := hfresh h2
    have hge : 1 ≤ (chargeOf s x).toNat := one_le_stoppingCharge hlt hwe
    omega
  · omega

/-- The end of a turn of at least 1 ns, on any CPU. -/
theorem PacedAt.charge {c : κ} (h : PacedAt base cpus w n s x (.cpu c)) (hran : 1 ≤ s.ran c)
    (hnear : Within base (s.scx x).dsqVtime) (hwe : (s.params x).weight.toNat ≤ 10000)
    (hs : Charged s t x) : Off base w n t x := by
  simp only [PacedAt] at h
  split at h
  · rw [min_eq_right hran] at h
    exact h.off_of_charged hnear hwe hs
  · exact h.mono (by rw [offset_charged hnear hs]; omega)

/-- A task whose slice is used up has run. -/
theorem one_le_ran {c : κ} (hw : Wf s) (hc : At s x (.cpu c)) (h0 : (s.scx x).slice = 0) :
    1 ≤ s.ran c := by
  by_contra hlt
  have hpos := hw.slices x (.inr (.inr ⟨c, hc, by omega⟩))
  rw [h0] at hpos
  exact absurd hpos (by decide)

end

omit [DecidableEq τ] in
theorem at_unique (hw : Wf s) {l l' : Place κ} (hl : At s x l) (hl' : At s x l') : l' = l := by
  by_contra hne
  exact hw.not_at hl (Ne.symm hne) hl'

omit [DecidableEq τ] in
/-- Wherever the task is now, that place decides. -/
theorem Paced.of_at (hw : Wf t) {l : Place κ} (hl : At t x l) (hp : PacedAt base cpus w n t x l)
    (hb : (n : Int) ≤ 1 + max 0 (v - w)) : Paced base cpus v w n t x :=
  ⟨fun _ hl' => at_unique hw hl hl' ▸ hp, hb⟩

omit [DecidableEq κ] [DecidableEq τ] in
theorem PacedAt.congr {l : Place κ} (h : PacedAt base cpus w n s x l) (hl : At s x l)
    (hs : t.scx x = s.scx x) (hsl : t.sliceOf x = s.sliceOf x)
    (hr : ∀ c, s.curr c = some x → t.ran c = s.ran c) : PacedAt base cpus w n t x l := by
  cases l with
  | cpu c =>
    simp only [PacedAt, Turn, Off, hs, hsl, hr c hl] at h ⊢
    exact h
  | _ =>
    simp only [PacedAt, Turn, Off, hs, hsl] at h ⊢
    exact h

omit [DecidableEq κ] [DecidableEq τ] in
/-- Running uses up the slice, and a turn that has begun counts for 1 ns. -/
theorem PacedAt.run {c : κ} {ns : Nat} (h : PacedAt base cpus w n s x (.cpu c)) (hw : Wf s)
    (hc : At s x (.cpu c)) (hsl : t.sliceOf x = s.sliceOf x)
    (hs : t.scx x = ⟨(s.scx x).dsqVtime, BitVec.ofNat 64 ((s.scx x).slice.toNat - ns)⟩)
    (hr : t.ran c = s.ran c + ns) : PacedAt base cpus w n t x (.cpu c) := by
  have hone : s.ran c = 0 → 1 ≤ (s.scx x).slice.toNat :=
    fun h0 => hw.slices x (.inr (.inr ⟨c, hc, h0⟩))
  have hlt := (s.scx x).slice.isLt
  simp only [PacedAt, Turn, Off, hs, hsl, hr, BitVec.toNat_ofNat] at h ⊢
  split at h
  · next hcpu =>
    rw [if_pos hcpu]
    refine ⟨h.1, fun h2 => ?_⟩
    have hfresh := h.2 h2
    by_cases h0 : s.ran c = 0
    · have hpos := hone h0
      omega
    · omega
  · next hcpu =>
    rw [if_neg hcpu]
    exact h

theorem Paced.step (h : Paced base cpus v w n s x) (hw : Wf s) (hwt : Wf t)
    (hfloor : Floor base (-2 ^ 61) s) (hts : TaskStep s x t a es) (ha : Allowed base s a)
    (hsl : t.sliceOf x = s.sliceOf x) (hwe : (s.params x).weight.toNat ≤ 10000)
    (hon : x ∈ s.enabled) (hbusy : ∀ c, cpus c → s.lowestOn c ≠ none)
    (hmove : ∀ c, cpus c → s.lowestOn c = some x → At t x (.waits c) →
      n = 0 ∨ offset base (s.scx x).dsqVtime < v ∧
        (s.scx x).slice.toNat ≤ (s.sliceOf x).toNat) :
    Paced base cpus v w (n + es.countP (movedTo cpus x)) t x := by
  have hnear : Within base (s.scx x).dsqVtime := ha.1 x hon
  cases hts with
  | stay hat hs hr hes =>
    rw [countP_movedTo (moved_notMem hes)]
    exact ⟨fun l hl => (h.place l ((hat l).mp hl)).congr ((hat l).mp hl) hs hsl hr, h.bound⟩
  | enable hm ht hs => exact absurd hon hm
  | wakeQueue hm ht hs =>
    have hoff : Off base w n s x := h.place _ hm
    exact .of_at hwt ht (hoff.mono (by rw [hs])) h.bound
  | @wakeLocal c d hm ht hs =>
    have hoff : Off base w n s x := h.place _ hm
    have hoff' : Off base w n t x := hoff.mono (by rw [hs])
    refine .of_at hwt ht ?_ h.bound
    simp only [PacedAt]
    split
    · exact hoff'.turn fun _ => by rw [hs, hsl, Nat.add_zero]
    · exact hoff'
  | @move _ es c hm ht hs hq hes =>
    have hoff : Off base w n s x := h.place _ hm
    have hbound := h.bound
    rw [List.countP_cons, countP_movedTo (moved_notMem hes), Nat.zero_add]
    by_cases hcpu : cpus c
    · have hcount : (if movedTo cpus x (.moved c x) then 1 else 0) = 1 := by simp [movedTo, hcpu]
      have hahead := hmove c hcpu hq ht
      rw [hcount]
      unfold Off at hoff
      refine .of_at hwt ht ?_ ?_
      · simp only [PacedAt, hcpu, if_true, Turn, hs, hsl]
        refine ⟨by omega, fun h2 => ?_⟩
        rcases hahead with h0 | ⟨-, hfresh⟩
        · omega
        · exact hfresh
      · rcases hahead with h0 | ⟨hlt, -⟩
        · omega
        · omega
    · have hcount : (if movedTo cpus x (.moved c x) then 1 else 0) = 0 := by simp [movedTo, hcpu]
      rw [hcount]
      refine .of_at hwt ht ?_ hbound
      simp only [PacedAt, hcpu]
      exact hoff.mono (by rw [hs])
  | @pick c hm ht hs hr =>
    have hold := h.place _ hm
    refine .of_at hwt ht ?_ h.bound
    simp only [PacedAt, Turn, Off, hs, hsl, hr] at hold ⊢
    exact hold
  | run hm ht hs hr => exact .of_at hwt ht ((h.place _ hm).run hw hm hsl hs hr) h.bound
  | sleep hm ht hs =>
    exact .of_at hwt ht ((h.place _ hm).charge ha.2 hnear hwe hs) h.bound
  | @keep c hm ht hs =>
    have hoff := (h.place _ hm).charge ha.2 hnear hwe hs
    have hold := h.place _ hm
    refine .of_at hwt ht ?_ h.bound
    simp only [PacedAt] at hold ⊢
    split
    · next hcpu =>
      rw [if_pos hcpu] at hold
      refine hoff.turn fun h2 => ?_
      have hfresh := hold.2 h2
      rw [hs, hsl]
      exact le_trans (by simp) hfresh
    · exact hoff
  | stop es hm ht hs h0 hes =>
    rw [List.countP_append, countP_movedTo (moved_notMem hes)]
    exact .of_at hwt ht ((h.place _ hm).charge (one_le_ran hw hm h0) hnear hwe hs) h.bound
  | @insert c found pick tp now hpc hm ht hs =>
    have hoff : Off base w n s x := h.place _ hm
    have hnow := (hfloor.insert _ _ _ _ _ _ hpc).within le_rfl
    refine .of_at hwt ht (hoff.mono ?_) h.bound
    rw [hs, offset_clamp hnow hnear]
    exact le_max_left _ _
  | @refill c hm ht hs hq =>
    have hcpu : ¬ cpus c := fun hcpu => hbusy c hcpu hq
    have hold := h.place _ hm
    refine .of_at hwt ht ?_ h.bound
    simp only [PacedAt, hcpu] at hold ⊢
    exact Off.mono hold (by rw [hs])

end Paced

/-! ## All tasks while `i` waits -/

/-- The run `tr` from `s₀` has not moved `i` yet. What is ahead of `i` in the
queue was there before it and has not been moved to a CPU of `i`; what is behind
it came with a fresh slice. -/
structure Waits (base : U64) (s₀ : System κ τ) (i : τ) (tr : List (Event κ τ)) (s : System κ τ) :
    Prop where
  wf : Wf s
  floor : Floor base (-2 ^ 61) s
  weight : ∀ p, (s.params p).weight.toNat ≤ 10000
  read : SlicesRead s
  allowed : s.allowed = s₀.allowed
  target : (s.scx i).dsqVtime = (s₀.scx i).dsqVtime
  queue : ∃ pre post, s.dsq = pre ++ i :: post ∧
    (∀ p ∈ pre, tr.countP (movedTo (s₀.allowed i) p) = 0) ∧
    ∀ p ∈ post, (s.scx p).slice.toNat ≤ (s.sliceOf p).toNat
  started : s₀.enabled ⊆ s.enabled
  events : ∀ x, (∃ w, .enabled x w ∈ tr) ∨ (∃ c, .moved c x ∈ tr) → x ∈ s.enabled
  paced : ∀ x w, StartVtime s₀ tr x w →
    Paced base (s₀.allowed i) (offset base (s₀.scx i).dsqVtime) (offset base w)
      (tr.countP (movedTo (s₀.allowed i) x)) s x

/-- What a step does to `K8S_DSQ_ID`. -/
inductive DsqStep (s t : System κ τ) (es : List (Event κ τ)) : Prop
  | same (ht : t.dsq = s.dsq)
  | moved {c : κ} {q : τ} (he : .moved c q ∈ es) (hat : At t q (.waits c))
      (ht : t.dsq = s.dsq.erase q)
  | inserted {c : κ} {p : τ} {found pick : Bool} {tp : TaskParams} {now : U64}
      (hpc : s.pc c = .insert p found tp now pick) (ht : t.dsq = s.dsq ++ [p])
      (hs : (t.scx p).slice = taskSlice tp)

section Waits

variable {base : U64} {s₀ s t : System κ τ} {i : τ} {tr es : List (Event κ τ)} {a : Smp.Action κ τ}

theorem does_dsq (hd : Does s a t es) : DsqStep s t es := by
  cases hd with
  | balanceMoved hout hidle hl hq => exact .moved List.mem_cons_self (by simp [At]) rfl
  | expireMoved hout hcur hs hl hq => exact .moved List.mem_cons_self (by simp [At]) rfl
  | insert hpc => exact .inserted hpc rfl (by simp)
  | _ => exact .same rfl

theorem does_enabled (hd : Does s a t es) : s.enabled ⊆ t.enabled := by
  cases hd with
  | enable => exact Finset.subset_insert _ _
  | _ => exact Finset.Subset.refl _

/-- A task that stays in `K8S_DSQ_ID` is left alone. -/
theorem queued_stays (hw : Wf s) (hwt : Wf t) (hd : Does s a t es) {x : τ} (hx : x ∈ s.dsq)
    (hxt : x ∈ t.dsq) : t.scx x = s.scx x ∧ ∀ c, .moved c x ∉ es := by
  have hs : At s x .queued := hx
  have ht : At t x .queued := hxt
  have hne : ∀ {l : Place κ}, l ≠ .queued → ¬ At s x l := fun hl => hw.not_at hs (Ne.symm hl)
  have hnet : ∀ {l : Place κ}, l ≠ .queued → ¬ At t x l := fun hl => hwt.not_at ht (Ne.symm hl)
  cases does_taskStep hw hd x with
  | stay hat hs hr hes => exact ⟨hs, moved_notMem hes⟩
  | move c hm ht => exact absurd ht (hnet (by simp))
  | enable hm | wakeQueue hm | wakeLocal hm | pick hm | run hm | sleep hm | keep hm | stop _ hm
  | insert _ hm | refill hm => exact absurd hm (hne (by simp))

section

omit [DecidableEq κ]

theorem Waits.queued (h : Waits base s₀ i tr s) : i ∈ s.dsq := by
  obtain ⟨pre, post, hdsq, -⟩ := h.queue
  simp [hdsq]

theorem Waits.enabled (h : Waits base s₀ i tr s) {x : τ} {w : U64} (hx : StartVtime s₀ tr x w) :
    x ∈ s.enabled := by
  rcases hx with ⟨hx, -⟩ | ⟨-, hx⟩
  · exact h.started hx
  · exact h.events x (.inl ⟨w, hx⟩)

/-- The CPUs `i` may run on find something to move. -/
theorem Waits.busy (h : Waits base s₀ i tr s) {c : κ} (hc : s₀.allowed i c) :
    s.lowestOn c ≠ none := by
  intro hnone
  have hnil := lowest_eq_none.mp hnone
  have hmem : i ∈ s.dsq.filter fun p => s.allowed p c :=
    List.mem_filter.mpr ⟨h.queued, by rw [h.allowed]; exact hc⟩
  rw [hnil] at hmem
  exact absurd hmem List.not_mem_nil

/-- What a CPU of `i` moves ahead of it was there before it or is strictly before
it in virtual time. -/
theorem Waits.lowest (h : Waits base s₀ i tr s) (hnear : TasksNear base s) {c : κ} {x : τ}
    (hc : s₀.allowed i c) (hlow : s.lowestOn c = some x) (hx : x ≠ i) :
    tr.countP (movedTo (s₀.allowed i) x) = 0 ∨
      offset base (s.scx x).dsqVtime < offset base (s₀.scx i).dsqVtime ∧
        (s.scx x).slice.toNat ≤ (s.sliceOf x).toNat := by
  obtain ⟨pre, post, hdsq, hpre, hpost⟩ := h.queue
  have hmem := (lowestOn_mem hlow).1
  have hwithin : ∀ p ∈ s.dsq, Within base (s.scx p).dsqVtime := fun p hp =>
    hnear p (h.wf.enabled_of_at (l := .queued) hp (by simp))
  have hfilter : s.dsq.filter (fun p => s.allowed p c) =
      pre.filter (fun p => s.allowed p c) ++ i :: post.filter fun p => s.allowed p c := by
    rw [hdsq, List.filter_append, List.filter_cons, if_pos (by rw [h.allowed]; exact hc)]
  have hkey : ∀ p ∈ s.dsq.filter (fun p => s.allowed p c),
      ∀ q ∈ s.dsq.filter (fun p => s.allowed p c),
      VClock.before (s.scx p).dsqVtime (s.scx q).dsqVtime =
        decide (offset base (s.scx p).dsqVtime < offset base (s.scx q).dsqVtime) := by
    intro p hp q hq
    obtain ⟨hp1, hp2⟩ := hwithin p (List.mem_of_mem_filter hp)
    obtain ⟨hq1, hq2⟩ := hwithin q (List.mem_of_mem_filter hq)
    exact before_offset (by omega) (by omega)
  have hahead : x ∈ pre.filter (fun p => s.allowed p c) ∨ x = i ∨
      offset base (s.scx x).dsqVtime < offset base (s.scx i).dsqVtime := by
    unfold System.lowestOn at hlow
    rw [hfilter] at hlow
    exact lowest_ahead (fun p hp q hq => hkey p (hfilter ▸ hp) q (hfilter ▸ hq)) hlow
  rw [h.target] at hahead
  by_cases hp : x ∈ pre
  · exact .inl (hpre x hp)
  · have hq : x ∈ post := by
      rw [hdsq] at hmem
      simpa [hp, hx] using hmem
    have hlt := (hahead.resolve_left fun hf => hp (List.mem_of_mem_filter hf)).resolve_left hx
    exact .inr ⟨hlt, hpost x hq⟩

end

/-- The queue around `i` after a step that leaves `i` in it. -/
theorem Waits.split (h : Waits base s₀ i tr s) (hd : Does s a t es) (ha : Allowed base s a)
    (hwt : Wf t) (hi : i ∈ t.dsq) :
    ∃ pre post ins pre' post', s.dsq = pre ++ i :: post ∧ t.dsq = pre' ++ i :: (post' ++ ins) ∧
      (∀ p ∈ pre, tr.countP (movedTo (s₀.allowed i) p) = 0) ∧
      (∀ p ∈ post, (s.scx p).slice.toNat ≤ (s.sliceOf p).toNat) ∧
      pre' ⊆ pre ∧ post' ⊆ post ∧ ∀ p ∈ ins, (t.scx p).slice = t.sliceOf p := by
  obtain ⟨pre, post, hdsq, hpre, hpost⟩ := h.queue
  cases does_dsq hd with
  | same ht =>
    exact ⟨pre, post, [], pre, post, hdsq, by rw [ht, hdsq, List.append_nil], hpre, hpost,
      List.Subset.refl _, List.Subset.refl _, by simp⟩
  | @moved c q he hat ht =>
    have hqi : q ≠ i := by
      rintro rfl
      exact hwt.not_at (k := .queued) hat (by simp) hi
    by_cases hmem : q ∈ pre
    · refine ⟨pre, post, [], pre.erase q, post, hdsq, ?_, hpre, hpost, List.erase_subset,
        List.Subset.refl _, by simp⟩
      rw [ht, hdsq, List.erase_append_left _ hmem, List.append_nil]
    · refine ⟨pre, post, [], pre, post.erase q, hdsq, ?_, hpre, hpost, List.Subset.refl _,
        List.erase_subset, by simp⟩
      rw [ht, hdsq, List.erase_append_right _ hmem,
        List.erase_cons_tail (by simpa using hqi.symm), List.append_nil]
  | @inserted c p found pick tp now hpc ht hs =>
    refine ⟨pre, post, [p], pre, post, hdsq, ?_, hpre, hpost, List.Subset.refl _,
      List.Subset.refl _, fun q hq => ?_⟩
    · rw [ht, hdsq, List.append_assoc, List.cons_append]
    · have hread := h.read c
      rw [hpc] at hread
      rw [List.mem_singleton.mp hq, hs, does_sliceOf hd ha]
      exact hread

theorem Waits.step_queue (h : Waits base s₀ i tr s) (hd : Does s a t es) (ha : Allowed base s a)
    (hi : i ∈ t.dsq) : ∃ pre post, t.dsq = pre ++ i :: post ∧
      (∀ p ∈ pre, (tr ++ es).countP (movedTo (s₀.allowed i) p) = 0) ∧
      ∀ p ∈ post, (t.scx p).slice.toNat ≤ (t.sliceOf p).toNat := by
  have hwt := h.wf.step hd
  obtain ⟨pre, post, ins, pre', post', hdsq, ht, hpre, hpost, hsub, hsub', hins⟩ :=
    h.split hd ha hwt hi
  have hstays : ∀ p ∈ s.dsq, p ∈ t.dsq → t.scx p = s.scx p ∧ ∀ c, .moved c p ∉ es :=
    fun p hp hpt => queued_stays h.wf hwt hd hp hpt
  refine ⟨pre', post' ++ ins, ht, fun p hp => ?_, fun p hp => ?_⟩
  · have hps := hsub hp
    obtain ⟨-, hes⟩ := hstays p (by simp [hdsq, hps]) (by simp [ht, hp])
    rw [List.countP_append, hpre p hps, countP_movedTo hes]
  · rcases List.mem_append.mp hp with hp | hp
    · have hps := hsub' hp
      obtain ⟨hs, -⟩ := hstays p (by simp [hdsq, hps]) (by simp [ht, hp])
      rw [hs, does_sliceOf hd ha]
      exact hpost p hps
    · rw [hins p hp]

/-- A task that a step moves was enabled. -/
theorem does_moved (hw : Wf s) (hd : Does s a t es) {c : κ} {x : τ} (hx : .moved c x ∈ es) :
    x ∈ t.enabled := by
  cases hd with
  | balanceMoved hout hidle hl hq | expireMoved hout hcur hs hl hq =>
    have hon := hw.enabled_of_at (l := .queued) (lowestOn_mem hq).1 (by simp)
    simp only [List.mem_cons, Event.moved.injEq, reduceCtorEq, List.not_mem_nil, or_false] at hx
    exact hx.2 ▸ hon
  | _ => simp at hx

/-- A task that a step enables is asleep afterwards, and starts from the clock. -/
theorem does_enable (hd : Does s a t es) {x : τ} {w : U64} (hx : .enabled x w ∈ es) :
    x ∉ s.enabled ∧ x ∈ t.enabled ∧ At t x .asleep ∧ (t.scx x).dsqVtime = w ∧
      ∀ c, .moved c x ∉ es := by
  cases hd with
  | @enable c p hout hp =>
    simp only [List.mem_singleton, Event.enabled.injEq] at hx
    obtain ⟨rfl, rfl⟩ := hx
    exact ⟨hp, by simp, by simp [At], by simp, by simp⟩
  | _ => simp at hx

theorem Waits.step_paced (h : Waits base s₀ i tr s) (hd : Does s a t es) (ha : Allowed base s a)
    (hi : i ∈ t.dsq) (x : τ) (w : U64) (hx : StartVtime s₀ (tr ++ es) x w) :
    Paced base (s₀.allowed i) (offset base (s₀.scx i).dsqVtime) (offset base w)
      ((tr ++ es).countP (movedTo (s₀.allowed i) x)) t x := by
  have hwt := h.wf.step hd
  have hold : StartVtime s₀ tr x w → Paced base (s₀.allowed i) (offset base (s₀.scx i).dsqVtime)
      (offset base w) ((tr ++ es).countP (movedTo (s₀.allowed i) x)) t x := by
    intro hx
    rw [List.countP_append]
    refine (h.paced x w hx).step h.wf hwt h.floor (does_taskStep h.wf hd x) ha
      (does_sliceOf hd ha x) (h.weight x) (h.enabled hx) (fun c hc => h.busy hc)
      fun c hc hlow hat => h.lowest ha.1 hc hlow ?_
    rintro rfl
    exact hwt.not_at (k := .queued) hat (by simp) hi
  rcases hx with ⟨hx, hv⟩ | ⟨hx, hev⟩
  · exact hold (.inl ⟨hx, hv⟩)
  · rcases List.mem_append.mp hev with hev | hev
    · exact hold (.inr ⟨hx, hev⟩)
    · -- `x` is enabled by this very step, and has not been moved yet
      obtain ⟨hnot, -, ht, hv, hes⟩ := does_enable hd hev
      have hnone : ∀ c, .moved c x ∉ tr := fun c hc => hnot (h.events x (.inr ⟨c, hc⟩))
      rw [List.countP_append, countP_movedTo hnone, countP_movedTo hes]
      refine .of_at hwt ht ?_ (by omega)
      simp [PacedAt, Off, hv]

/-- While `i` stays in the queue it goes on waiting. -/
theorem Waits.step (h : Waits base s₀ i tr s) (hd : Does s a t es) (ha : Allowed base s a)
    (hmoved : ∀ c, .moved c i ∉ es) : Waits base s₀ i (tr ++ es) t := by
  have hwt := h.wf.step hd
  have hi : i ∈ t.dsq := by
    cases does_dsq hd with
    | same ht => rw [ht]; exact h.queued
    | @moved c q he hat ht =>
      have hqi : i ≠ q := by
        rintro rfl
        exact hmoved c he
      rw [ht]
      exact (List.mem_erase_of_ne hqi).mpr h.queued
    | inserted hpc ht => rw [ht]; exact List.mem_append_left _ h.queued
  refine ⟨hwt, h.floor.step le_rfl h.wf ha.1 hd, does_weight hd ha h.weight, h.read.step hd ha,
    (does_allowed hd).trans h.allowed, ?_, h.step_queue hd ha hi,
    h.started.trans (does_enabled hd), fun x hx => ?_, h.step_paced hd ha hi⟩
  · rw [(queued_stays h.wf hwt hd h.queued hi).1]
    exact h.target
  · simp only [List.mem_append, exists_or] at hx
    rcases hx with (⟨w, hx⟩ | ⟨w, hx⟩) | (⟨c, hx⟩ | ⟨c, hx⟩)
    · exact does_enabled hd (h.events x (.inl ⟨w, hx⟩))
    · exact (does_enable hd hx).2.1
    · exact does_enabled hd (h.events x (.inr ⟨c, hx⟩))
    · exact does_moved h.wf hd hx

omit [DecidableEq κ] in
/-- `i` has just been inserted. -/
theorem waits_start (hw : Wf s) (hfloor : Floor base (-2 ^ 61) s) (hread : SlicesRead s)
    (hwe : ∀ p, (s.params p).weight.toNat ≤ 10000) (hi : s.dsq.getLast? = some i) :
    Waits base s i [] s := by
  obtain ⟨pre, hdsq⟩ := List.getLast?_eq_some_iff.mp hi
  refine ⟨hw, hfloor, hwe, hread, rfl, rfl, ⟨pre, [], hdsq, fun _ _ => rfl, by simp⟩,
    Finset.Subset.refl _, by simp, fun x w hx => ?_⟩
  rcases hx with ⟨-, rfl⟩ | ⟨-, hx⟩
  · refine ⟨fun l _ => ?_, by rw [List.countP_nil]; omega⟩
    cases l with
    | waits c | cpu c =>
      simp only [PacedAt, List.countP_nil]
      split
      · exact ⟨by simp, by simp⟩
      · simp [Off]
    | _ => simp [PacedAt, Off]
  · simp at hx

end Waits

/-! ## A run -/

instance (base : U64) (s : System Bool Bool) : ∀ a, Decidable (Allowed base s a)
  | .sleep c => inferInstanceAs (Decidable (TasksNear base s ∧ 1 ≤ s.ran c))
  | .preempt c => inferInstanceAs (Decidable (TasksNear base s ∧ 1 ≤ s.ran c))
  | .setMaps _ => inferInstanceAs (Decidable (TasksNear base s ∧ ∀ _, _))
  | .enable _ _ | .wake _ _ _ | .balance _ | .run _ _ | .expire _ | .proceed _ =>
    inferInstanceAs (Decidable (TasksNear base s ∧ True))

/-- One task waits with virtual time 100 for the one CPU it may run on; the other
one sleeps with virtual time 0 and may run on both. -/
def pinned : System Bool Bool :=
  { boot ⟨∅, ∅⟩ (fun _ => ⟨0, none⟩) fun p c => !p || c with
    scx := fun p => if p then ⟨100, 5000000⟩ else ⟨0, 0⟩
    dsq := [true]
    enabled := {true, false}
    asleep := {false} }

end K8sSched.Bpf.SmpBypass
