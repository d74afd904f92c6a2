import K8sSched.Bpf.Smp

/-! # Where tasks are on several CPUs

A runnable task is in exactly one place: on a CPU, in a local queue, in
`K8S_DSQ_ID`, or in the hands of the CPU that enqueues it. However the callbacks
interleave, none is lost and none is queued twice. -/

namespace K8sSched.Bpf.SmpPlaces
open K8sSched.Bpf.Params K8sSched.Bpf.Ops K8sSched.Bpf.Smp
open K8sSched.Lib.WrapClock K8sSched.Lib.FifoQueue K8sSched.Lib.Runs

variable {κ τ : Type} [DecidableEq κ] [DecidableEq τ]

section Frame

variable (s : System κ τ) (c q : κ) (p : τ)

@[simp] theorem stop_scx : (stop s c p).scx = Function.update s.scx p
    ⟨(s.scx p).dsqVtime + chargeOf s p, (s.scx p).slice⟩ := rfl
@[simp] theorem stop_dsq : (stop s c p).dsq = s.dsq := rfl
@[simp] theorem stop_localDsq : (stop s c p).localDsq = s.localDsq := by
  simp [stop, System.put, System.leave, System.on]
@[simp] theorem stop_curr : (stop s c p).curr = Function.update s.curr c none := rfl
@[simp] theorem stop_stats : (stop s c p).stats = s.stats := by
  simp [stop, System.put, System.leave, System.on, k8sStopping]
@[simp] theorem stop_vtimeNow : (stop s c p).vtimeNow = s.vtimeNow := rfl
@[simp] theorem stop_maps : (stop s c p).maps = s.maps := rfl
@[simp] theorem stop_task : (stop s c p).task = s.task := rfl
@[simp] theorem stop_allowed : (stop s c p).allowed = s.allowed := rfl
@[simp] theorem stop_enabled : (stop s c p).enabled = s.enabled := rfl
@[simp] theorem stop_asleep : (stop s c p).asleep = s.asleep := rfl
@[simp] theorem stop_ran : (stop s c p).ran = s.ran := rfl
@[simp] theorem stop_pc : (stop s c p).pc = s.pc := rfl

variable (v : Sched U64 τ)

section

omit [DecidableEq τ]

@[simp] theorem put_scx : (s.put c q v).scx = v.scx := rfl
@[simp] theorem put_dsq : (s.put c q v).dsq = v.dsq := rfl
@[simp] theorem put_localDsq :
    (s.put c q v).localDsq = Function.update s.localDsq q v.localDsq := rfl
@[simp] theorem put_stats : (s.put c q v).stats = Function.update s.stats c v.stats := rfl
@[simp] theorem put_vtimeNow : (s.put c q v).vtimeNow = s.vtimeNow := rfl
@[simp] theorem put_maps : (s.put c q v).maps = s.maps := rfl
@[simp] theorem put_task : (s.put c q v).task = s.task := rfl
@[simp] theorem put_allowed : (s.put c q v).allowed = s.allowed := rfl
@[simp] theorem put_enabled : (s.put c q v).enabled = s.enabled := rfl
@[simp] theorem put_asleep : (s.put c q v).asleep = s.asleep := rfl
@[simp] theorem put_curr : (s.put c q v).curr = s.curr := rfl
@[simp] theorem put_ran : (s.put c q v).ran = s.ran := rfl
@[simp] theorem put_pc : (s.put c q v).pc = s.pc := rfl

end

variable (pc : Pc τ)

section

omit [DecidableEq τ]

@[simp] theorem goto_scx : (s.goto c pc).scx = s.scx := rfl
@[simp] theorem goto_dsq : (s.goto c pc).dsq = s.dsq := rfl
@[simp] theorem goto_localDsq : (s.goto c pc).localDsq = s.localDsq := rfl
@[simp] theorem goto_vtimeNow : (s.goto c pc).vtimeNow = s.vtimeNow := rfl
@[simp] theorem goto_maps : (s.goto c pc).maps = s.maps := rfl
@[simp] theorem goto_task : (s.goto c pc).task = s.task := rfl
@[simp] theorem goto_allowed : (s.goto c pc).allowed = s.allowed := rfl
@[simp] theorem goto_enabled : (s.goto c pc).enabled = s.enabled := rfl
@[simp] theorem goto_asleep : (s.goto c pc).asleep = s.asleep := rfl
@[simp] theorem goto_curr : (s.goto c pc).curr = s.curr := rfl
@[simp] theorem goto_ran : (s.goto c pc).ran = s.ran := rfl
@[simp] theorem goto_stats : (s.goto c pc).stats = s.stats := rfl
@[simp] theorem goto_pc : (s.goto c pc).pc = Function.update s.pc c pc := rfl

end

variable (found : Bool) (tp : TaskParams) (now : U64)

@[simp] theorem enqueueInsert_scx : (enqueueInsert v p found tp now).scx =
    Function.update v.scx p ⟨clampVtime now (v.scx p).dsqVtime, taskSlice tp⟩ := rfl
@[simp] theorem enqueueInsert_dsq : (enqueueInsert v p found tp now).dsq = v.dsq ++ [p] := rfl
@[simp] theorem enqueueInsert_localDsq :
    (enqueueInsert v p found tp now).localDsq = v.localDsq := rfl

section

omit [DecidableEq κ] [DecidableEq τ]

@[simp] theorem on_scx : (s.on c q).scx = s.scx := rfl
@[simp] theorem on_dsq : (s.on c q).dsq = s.dsq := rfl
@[simp] theorem on_localDsq : (s.on c q).localDsq = s.localDsq q := rfl
@[simp] theorem on_stats : (s.on c q).stats = s.stats c := rfl
@[simp] theorem on_vtimeNow : (s.on c q).vtimeNow = s.vtimeNow := rfl
@[simp] theorem on_sliceOf : (s.on c q).sliceOf p = s.sliceOf p := rfl

end

@[simp] theorem moveTo_scx : (s.moveTo c p).scx = s.scx := rfl
@[simp] theorem moveTo_dsq : (s.moveTo c p).dsq = s.dsq.erase p := rfl
@[simp] theorem moveTo_localDsq :
    (s.moveTo c p).localDsq = Function.update s.localDsq c (s.localDsq c ++ [p]) := rfl
@[simp] theorem moveTo_curr : (s.moveTo c p).curr = s.curr := rfl
@[simp] theorem moveTo_stats : (s.moveTo c p).stats = s.stats := rfl
@[simp] theorem moveTo_pc : (s.moveTo c p).pc = s.pc := rfl

end Frame

/-- Where a task is. -/
inductive Place (κ : Type) where
  | absent
  | asleep
  | enqueued (c : κ)
  | queued
  | waits (c : κ)
  | cpu (c : κ)
  deriving DecidableEq

/-- The task a CPU is about to insert. -/
def enqueues : Pc τ → Option τ
  | .enqueue p _ => some p
  | .clamp p _ _ _ => some p
  | .insert p _ _ _ _ => some p
  | _ => none

/-- The places of a task in a state. -/
def At (s : System κ τ) (p : τ) : Place κ → Prop
  | .absent => p ∉ s.enabled
  | .asleep => p ∈ s.asleep
  | .enqueued c => enqueues (s.pc c) = some p
  | .queued => p ∈ s.dsq
  | .waits c => p ∈ s.localDsq c
  | .cpu c => s.curr c = some p

/-- Every task is in the one place `place` gives for it. -/
structure Fits (s : System κ τ) (place : τ → Place κ) : Prop where
  at_iff : ∀ p l, At s p l ↔ place p = l
  dsq : s.dsq.Nodup
  localDsq : ∀ c, (s.localDsq c).Nodup

/-- One task goes from one place to another. -/
structure Moves (s t : System κ τ) (p : τ) (l₀ l : Place κ) : Prop where
  left : ¬ At t p l₀
  entered : At t p l
  rest : ∀ x l', x ≠ p ∨ l' ≠ l₀ ∧ l' ≠ l → (At t x l' ↔ At s x l')

section Fits

variable {s t : System κ τ} {place : τ → Place κ}

omit [DecidableEq κ] [DecidableEq τ] in
theorem Moves.other {p x : τ} {l₀ l : Place κ} (h : Moves s t p l₀ l) (hx : x ≠ p) (l' : Place κ) :
    At t x l' ↔ At s x l' := h.rest x l' (.inl hx)

theorem Fits.moves (h : Fits s place) {p : τ} {l₀ l : Place κ} (h0 : At s p l₀)
    (hm : Moves s t p l₀ l) (x : τ) (l' : Place κ) :
    At t x l' ↔ Function.update place p l x = l' := by
  have hat := h.at_iff
  have hp := (hat p l₀).mp h0
  by_cases hx : x = p
  · subst hx
    rw [Function.update_self]
    by_cases hl : l' = l
    · exact iff_of_true (hl ▸ hm.entered) hl.symm
    · refine iff_of_false (fun hat' => ?_) (Ne.symm hl)
      by_cases hl₀ : l' = l₀
      · exact hm.left (hl₀ ▸ hat')
      · exact hl₀ (((hat x l').mp ((hm.rest x l' (.inr ⟨hl₀, hl⟩)).mp hat')).symm.trans hp)
  · rw [hm.other hx, hat, Function.update_of_ne hx]

theorem moves_enable (c : κ) (p : τ) :
    Moves s { s.put c c (k8sEnable (s.on c c) p) with
      enabled := insert p s.enabled, asleep := insert p s.asleep } p .absent .asleep := by
  refine ⟨by simp [At], by simp [At], fun x l' hx => ?_⟩
  cases l' <;> simp [At] at hx ⊢ <;> grind

theorem moves_wakeQueue {c : κ} (hpc : s.pc c = .outside) (p : τ) :
    Moves s { s.goto c (.enqueue p false) with asleep := s.asleep.erase p } p .asleep
      (.enqueued c) := by
  refine ⟨by simp [At], by simp [At, enqueues], fun x l' hx => ?_⟩
  cases l' <;> simp [At, Function.update_apply, enqueues] at hx ⊢ <;> grind [enqueues]

theorem moves_wakeLocal (c c' : κ) (p : τ) :
    Moves s { s.put c c' (k8sSelectCpu (s.on c c') p true) with asleep := s.asleep.erase p } p
      .asleep (.waits c') := by
  refine ⟨by simp [At], by simp [At], fun x l' hx => ?_⟩
  cases l' <;> simp [At, Function.update_apply] at hx ⊢ <;> grind

theorem moves_moveTo (c : κ) (p : τ) (hn : s.dsq.Nodup) :
    Moves s (s.moveTo c p) p .queued (.waits c) := by
  refine ⟨by simp [At, hn.mem_erase_iff], by simp [At], fun x l' hx => ?_⟩
  cases l' <;>
    simp [At, System.moveTo, Function.update_apply, hn.mem_erase_iff] at hx ⊢ <;> grind

theorem moves_sleep {c : κ} {p : τ} (hc : s.curr c = some p) :
    Moves s { stop s c p with asleep := insert p s.asleep } p (.cpu c) .asleep := by
  refine ⟨by simp [At], by simp [At], fun x l' hx => ?_⟩
  cases l' <;> simp [At, Function.update_apply] at hx ⊢ <;> grind

theorem moves_keep {c : κ} {p : τ} (hc : s.curr c = some p) :
    Moves s { stop s c p with localDsq := Function.update s.localDsq c (p :: s.localDsq c) } p
      (.cpu c) (.waits c) := by
  refine ⟨by simp [At], by simp [At], fun x l' hx => ?_⟩
  cases l' <;> simp [At, Function.update_apply] at hx ⊢ <;> grind

theorem moves_requeue {c : κ} {p : τ} (hpc : s.pc c = .outside) (hc : s.curr c = some p)
    (pick : Bool) :
    Moves s ((stop s c p).goto c (.enqueue p pick)) p (.cpu c) (.enqueued c) := by
  refine ⟨by simp [At], by simp [At, enqueues], fun x l' hx => ?_⟩
  cases l' <;> simp [At, Function.update_apply] at hx ⊢ <;> grind [enqueues]

omit [DecidableEq τ] in
theorem enqueues_after (pick : Bool) :
    enqueues (if pick then .pick else .outside : Pc τ) = none := by
  cases pick <;> rfl

theorem moves_insert {c : κ} {p : τ} {found pick : Bool} {tp : TaskParams} {now : U64}
    (hpc : s.pc c = .insert p found tp now pick) :
    Moves s ((s.put c c (enqueueInsert (s.on c c) p found tp now)).goto c
      (if pick then .pick else .outside)) p (.enqueued c) .queued := by
  have henq : enqueues (s.pc c) = some p := by rw [hpc]; rfl
  have hafter := enqueues_after (τ := τ) pick
  refine ⟨by simp [At, hafter], by simp [At], fun x l' hx => ?_⟩
  cases l' <;> simp [At, Function.update_apply] at hx ⊢ <;> grind

omit [DecidableEq τ] in
theorem moves_pick {c : κ} {p : τ} {rest : List τ} (hpc : s.pc c = .pick)
    (hl : s.localDsq c = p :: rest) (hn : (s.localDsq c).Nodup) (hidle : s.curr c = none) :
    Moves s { s.goto c (.running p) with
        localDsq := Function.update s.localDsq c rest
        curr := Function.update s.curr c (some p)
        ran := Function.update s.ran c 0 } p (.waits c) (.cpu c) := by
  rw [hl] at hn
  refine ⟨by simpa [At] using (List.nodup_cons.mp hn).1, by simp [At], fun x l' hx => ?_⟩
  cases l' <;> simp [At, Function.update_apply] at hx ⊢ <;> grind [enqueues]

omit [DecidableEq τ] in
/-- Steps of a callback that move no task. -/
theorem at_goto {c : κ} {pc : Pc τ} (henq : enqueues pc = enqueues (s.pc c)) (x : τ)
    (l : Place κ) : At (s.goto c pc) x l ↔ At s x l := by
  cases l with
  | enqueued c' =>
    by_cases hc : c' = c
    · subst hc
      simp [At, henq]
    · simp [At, hc]
  | _ => exact Iff.rfl

omit [DecidableEq τ] in
theorem Fits.goto (h : Fits s place) {c : κ} {pc : Pc τ}
    (henq : enqueues pc = enqueues (s.pc c)) : Fits (s.goto c pc) place :=
  ⟨fun x l => (at_goto henq x l).trans (h.at_iff x l), h.dsq, h.localDsq⟩

theorem Fits.of_moves (h : Fits s place) {p : τ} {o l : Place κ} (h0 : At s p o)
    (hm : Moves s t p o l) (hdsq : t.dsq.Nodup) (hlocal : ∀ c, (t.localDsq c).Nodup) :
    Fits t (Function.update place p l) :=
  ⟨h.moves h0 hm, hdsq, hlocal⟩

omit [DecidableEq κ] [DecidableEq τ] in
/-- A task that is somewhere else is not in a queue. -/
theorem Fits.not_at (h : Fits s place) {p : τ} {l k : Place κ} (hl : At s p l) (hne : l ≠ k) :
    ¬ At s p k := fun hk => hne (((h.at_iff p l).mp hl).symm.trans ((h.at_iff p k).mp hk))

omit [DecidableEq τ] in
theorem nodup_update {f : κ → List τ} (h : ∀ c, (f c).Nodup) (c : κ) {l : List τ} (hl : l.Nodup)
    (c' : κ) : (Function.update f c l c').Nodup := by
  by_cases hc : c' = c
  · subst hc
    rwa [Function.update_self]
  · rw [Function.update_of_ne hc]
    exact h c'

omit [DecidableEq τ] in
theorem nodup_concat {l : List τ} {p : τ} (h : l.Nodup) (hp : p ∉ l) : (l ++ [p]).Nodup :=
  (List.perm_append_singleton p l).nodup_iff.mpr (List.nodup_cons.mpr ⟨hp, h⟩)

theorem Fits.moveTo (h : Fits s place) {c : κ} {p : τ} (hp : p ∈ s.dsq) :
    Fits (s.moveTo c p) (Function.update place p (.waits c)) := by
  have hnot : p ∉ s.localDsq c := h.not_at (k := .waits c) (l := .queued) hp (by simp)
  exact h.of_moves (o := .queued) hp (moves_moveTo c p h.dsq) (h.dsq.erase p)
    (nodup_update h.localDsq c (nodup_concat (h.localDsq c) hnot))

theorem Fits.requeue (h : Fits s place) {c : κ} {p : τ} (hpc : s.pc c = .outside)
    (hc : s.curr c = some p) (pick : Bool) :
    Fits ((stop s c p).goto c (.enqueue p pick)) (Function.update place p (.enqueued c)) :=
  h.of_moves (o := .cpu c) hc (moves_requeue hpc hc pick) h.dsq (by simpa using h.localDsq)

omit [DecidableEq κ] [DecidableEq τ] in
theorem lowestOn_mem {c : κ} {p : τ} (h : s.lowestOn c = some p) : p ∈ s.dsq ∧ s.allowed p c := by
  simpa using lowest_mem h

/-- The CPU is where its callback needs it to be. -/
def PcOk (curr : Option τ) (localDsq : List τ) : Pc τ → Prop
  | .outside => True
  | .enqueue _ pick => pick → curr = none ∧ localDsq ≠ []
  | .clamp _ _ _ pick => pick → curr = none ∧ localDsq ≠ []
  | .insert _ _ _ _ pick => pick → curr = none ∧ localDsq ≠ []
  | .pick => curr = none ∧ localDsq ≠ []
  | .running p => curr = some p
  | .store _ => curr ≠ none

/-- Every step leaves each task in one place. -/
theorem Fits.step (h : Fits s place) (hpc : ∀ c, PcOk (s.curr c) (s.localDsq c) (s.pc c))
    {a : Smp.Action κ τ} {es : List (Event κ τ)} (hd : Does s a t es) :
    ∃ place', Fits t place' := by
  cases hd with
  | @enable c p hout hp =>
    exact ⟨_, h.of_moves (o := .absent) hp (moves_enable c p) h.dsq (by simpa using h.localDsq)⟩
  | @wakeQueue c p hout hp =>
    exact ⟨_, h.of_moves (o := .asleep) hp (moves_wakeQueue hout p) h.dsq h.localDsq⟩
  | @wakeLocal c c' p hout hp hpt hidle hallow =>
    have hnot : p ∉ s.localDsq c' := h.not_at (k := .waits c') (l := .asleep) hp (by simp)
    refine ⟨_, h.of_moves (o := .asleep) hp (moves_wakeLocal c c' p) h.dsq ?_⟩
    exact nodup_update h.localDsq c' (nodup_concat (h.localDsq c') hnot)
  | balanceLocal hout hidle hl => exact ⟨_, h.goto (by rw [hout]; rfl)⟩
  | balanceMoved hout hidle hl hq =>
    exact ⟨_, (h.moveTo (lowestOn_mem hq).1).goto (by rw [moveTo_pc, hout]; rfl)⟩
  | run hout hc => exact ⟨_, h.at_iff, h.dsq, h.localDsq⟩
  | sleep hout hc =>
    exact ⟨_, h.of_moves (o := .cpu _) hc (moves_sleep hc) h.dsq (by simpa using h.localDsq)⟩
  | @preemptKeep c p hout hc hs =>
    have hnot : p ∉ s.localDsq c := h.not_at (k := .waits c) (l := .cpu c) hc (by simp)
    refine ⟨_, h.of_moves (o := .cpu c) hc (moves_keep hc) h.dsq ?_⟩
    exact nodup_update h.localDsq c (List.nodup_cons.mpr ⟨hnot, h.localDsq c⟩)
  | preemptQueue hout hc hs => exact ⟨_, h.requeue hout hc false⟩
  | refill hout hc hs hl hq => exact ⟨_, h.at_iff, h.dsq, h.localDsq⟩
  | expireLocal hout hc hs hl => exact ⟨_, h.requeue hout hc true⟩
  | expireMoved hout hc hs hl hq =>
    exact ⟨_, (h.moveTo (lowestOn_mem hq).1).requeue hout hc true⟩
  | lookup hpc' => exact ⟨_, h.goto (by rw [hpc']; rfl)⟩
  | clamp hpc' => exact ⟨_, h.goto (by rw [hpc']; rfl)⟩
  | @insert c p found pick tp now hpc' =>
    have hat : At s p (.enqueued c) := by rw [At, hpc']; rfl
    have hnot : p ∉ s.dsq := h.not_at (k := .queued) hat (by simp)
    exact ⟨_, h.of_moves hat (moves_insert hpc') (nodup_concat h.dsq hnot)
      (by simpa using h.localDsq)⟩
  | @pick c p rest hpc' hl =>
    have hidle := hpc c
    rw [hpc'] at hidle
    have hn := h.localDsq c
    have hat : At s p (.waits c) := by rw [At, hl]; exact List.mem_cons_self
    refine ⟨_, h.of_moves hat (moves_pick hpc' hl hn hidle.1) h.dsq ?_⟩
    rw [hl] at hn
    exact nodup_update h.localDsq c (List.nodup_cons.mp hn).2
  | ahead hpc' hb => exact ⟨_, h.goto (by rw [hpc']; rfl)⟩
  | behind hpc' hb => exact ⟨_, h.goto (by rw [hpc']; rfl)⟩
  | @store c v hpc' =>
    have hgoto : Fits (s.goto c .outside) place := h.goto (by rw [hpc']; rfl)
    exact ⟨_, hgoto.at_iff, hgoto.dsq, hgoto.localDsq⟩
  | setMaps => exact ⟨_, h.at_iff, h.dsq, h.localDsq⟩

end Fits

/-- The task waits, or is on a CPU and has not run yet. -/
def TurnAhead (s : System κ τ) (p : τ) : Prop :=
  p ∈ s.dsq ∨ (∃ c, p ∈ s.localDsq c) ∨ ∃ c, s.curr c = some p ∧ s.ran c = 0

/-- Each task is in one place, each CPU where its callback needs it, and no task
is on a CPU it may not run on. A turn does not begin with an empty slice. -/
structure Wf (s : System κ τ) : Prop where
  fits : ∃ place, Fits s place
  pcOk : ∀ c, PcOk (s.curr c) (s.localDsq c) (s.pc c)
  allowed : ∀ c p, s.curr c = some p ∨ p ∈ s.localDsq c → s.allowed p c
  slices : ∀ p, TurnAhead s p → 1 ≤ (s.scx p).slice.toNat

section Wf

variable {s t : System κ τ} {a : Smp.Action κ τ} {es : List (Event κ τ)}

theorem does_maps (hd : Does s a t es) (ha : ∀ maps, a ≠ .setMaps maps) :
    t.maps = s.maps ∧ t.task = s.task := by
  cases hd with
  | setMaps => exact absurd rfl (ha _)
  | _ => exact ⟨rfl, rfl⟩

omit [DecidableEq τ] in
theorem PcOk.append {curr : Option τ} {l : List τ} {pc : Pc τ} (h : PcOk curr l pc) (p : τ) :
    PcOk curr (l ++ [p]) pc := by
  cases pc with
  | outside => trivial
  | enqueue q pick => exact fun hp => ⟨(h hp).1, by simp⟩
  | clamp q found tp pick => exact fun hp => ⟨(h hp).1, by simp⟩
  | insert q found tp now pick => exact fun hp => ⟨(h hp).1, by simp⟩
  | pick => exact ⟨h.1, by simp⟩
  | running q => exact h
  | store v => exact h

theorem Wf.step_pcOk (h : Wf s) (hd : Does s a t es) (c' : κ) :
    PcOk (t.curr c') (t.localDsq c') (t.pc c') := by
  have hold := h.pcOk c'
  cases hd with
  | @wakeLocal c d p hout hp hpt hidle hallow =>
    by_cases hc : c' = d
    · subst hc
      simpa using hold.append p
    · simpa [hc] using hold
  | enable | run | refill | setMaps => simpa [System.setSlice] using hold
  | @wakeQueue c p | @balanceLocal c | @balanceMoved c p | @sleep c p | @preemptKeep c p
  | @preemptQueue c p | @expireLocal c p | @expireMoved c p | @lookup c p | @clamp c p
  | @pick c p | @ahead c p | @behind c p | @store c =>
    by_cases hc : c' = c
    · subst hc
      simp_all [PcOk]
    · simpa [hc] using hold
  | @insert c p found pick tp now hpc =>
    by_cases hc : c' = c
    · subst hc
      rw [hpc] at hold
      cases pick with
      | false => simp [PcOk]
      | true => simpa [PcOk] using hold
    · simpa [hc] using hold

theorem Wf.step_allowed (h : Wf s) (hd : Does s a t es) (c' : κ) (x : τ)
    (hx : t.curr c' = some x ∨ x ∈ t.localDsq c') : t.allowed x c' := by
  have hold := h.allowed c' x
  cases hd with
  | @wakeLocal c d p hout hp hpt hidle hallow =>
    by_cases hc : c' = d
    · subst hc
      simp at hx
      rcases hx with hx | hx | rfl
      · exact hold (.inl hx)
      · exact hold (.inr hx)
      · exact hallow
    · simp [hc] at hx
      exact hold hx
  | @balanceMoved c p hout hidle hl hq =>
    have hallow := (lowestOn_mem hq).2
    by_cases hc : c' = c
    · subst hc
      simp [hl, hidle] at hx
      exact hx ▸ hallow
    · simp [hc] at hx
      exact hold hx
  | @expireMoved c p q hout hcur hs hl hq =>
    have hallow := (lowestOn_mem hq).2
    by_cases hc : c' = c
    · subst hc
      simp [hl] at hx
      exact hx ▸ hallow
    · simp [hc] at hx
      exact hold hx
  | enable | run | refill | setMaps | wakeQueue | balanceLocal | lookup | clamp | insert | ahead
  | behind | store =>
    simp [System.setSlice] at hx
    exact hold hx
  | @sleep c p hout hcur | @preemptQueue c p hout hcur hs | @expireLocal c p hout hcur hs hl =>
    by_cases hc : c' = c
    · subst hc
      simp at hx
      exact hold (.inr hx)
    · simp [hc] at hx
      exact hold hx
  | @preemptKeep c p hout hcur hs =>
    by_cases hc : c' = c
    · subst hc
      simp at hx
      rcases hx with rfl | hx
      · exact hold (.inl hcur)
      · exact hold (.inr hx)
    · simp [hc] at hx
      exact hold hx
  | @pick c p rest hpc hl =>
    by_cases hc : c' = c
    · subst hc
      simp at hx
      exact hold (.inr (by rw [hl, List.mem_cons]; exact hx.imp_left Eq.symm))
    · simp [hc] at hx
      exact hold hx

omit [DecidableEq κ] [DecidableEq τ] in
theorem Wf.not_at (h : Wf s) {p : τ} {l k : Place κ} (hl : At s p l) (hne : l ≠ k) :
    ¬ At s p k := by
  obtain ⟨place, hfits⟩ := h.fits
  exact hfits.not_at hl hne

omit [DecidableEq κ] in
theorem Wf.enabled_of_at (h : Wf s) {p : τ} {l : Place κ} (hl : At s p l) (hne : l ≠ .absent) :
    p ∈ s.enabled := by
  by_contra hp
  exact h.not_at hl hne hp

omit [DecidableEq κ] [DecidableEq τ] in
theorem Wf.nodup (h : Wf s) : s.dsq.Nodup ∧ ∀ c, (s.localDsq c).Nodup := by
  obtain ⟨place, hfits⟩ := h.fits
  exact ⟨hfits.dsq, hfits.localDsq⟩

/-- Charging or enabling a task leaves every slice alone. -/
theorem update_slice (f : τ → ScxEntity U64) (p x : τ) (v : U64) :
    (Function.update f p ⟨v, (f p).slice⟩ x).slice = (f x).slice := by
  by_cases hx : x = p
  · subst hx; simp
  · simp [hx]

omit [DecidableEq κ] [DecidableEq τ] in
theorem TurnAhead.imp {x : τ} (h : TurnAhead t x)
    (hq : x ∈ t.dsq → TurnAhead s x) (hl : ∀ c, x ∈ t.localDsq c → TurnAhead s x)
    (hr : ∀ c, t.curr c = some x → t.ran c = 0 → TurnAhead s x) : TurnAhead s x := by
  rcases h with h | ⟨c, h⟩ | ⟨c, hc, h0⟩
  · exact hq h
  · exact hl c h
  · exact hr c hc h0

/-- A task that leaves its CPU keeps its slice. -/
theorem turnAhead_stop {c : κ} {p x : τ} (h : TurnAhead (stop s c p) x) : TurnAhead s x := by
  refine h.imp .inl (fun c' hl => .inr (.inl ⟨c', by simpa using hl⟩)) fun c' hcur h0 => ?_
  by_cases hc : c' = c
  · subst hc
    simp at hcur
  · exact .inr (.inr ⟨c', by simpa [hc] using hcur, h0⟩)

theorem turnAhead_moveTo {c : κ} {p x : τ} (hp : p ∈ s.dsq) (h : TurnAhead (s.moveTo c p) x) :
    TurnAhead s x := by
  refine h.imp (fun hq => .inl (List.mem_of_mem_erase hq)) (fun c' hl => ?_)
    fun c' hcur h0 => .inr (.inr ⟨c', hcur, h0⟩)
  by_cases hc : c' = c
  · subst hc
    simp at hl
    rcases hl with hl | rfl
    · exact .inr (.inl ⟨c', hl⟩)
    · exact .inl hp
  · exact .inr (.inl ⟨c', by simpa [hc] using hl⟩)

theorem Wf.step_slices (h : Wf s) (hd : Does s a t es) (x : τ) (hx : TurnAhead t x) :
    1 ≤ (t.scx x).slice.toNat := by
  have hold := h.slices x
  cases hd with
  | wakeQueue | balanceLocal | lookup | clamp | ahead | behind | store | setMaps => exact hold hx
  | enable =>
    simp only [k8sEnable_scx, put_scx, on_scx, update_slice]
    exact hold (hx.imp .inl (fun c hl => .inr (.inl ⟨c, by simpa using hl⟩))
      fun c hcur h0 => .inr (.inr ⟨c, hcur, h0⟩))
  | sleep | preemptQueue | expireLocal =>
    simp only [stop_scx, goto_scx, update_slice]
    exact hold (turnAhead_stop hx)
  | balanceMoved hout hidle hl hq => exact hold (turnAhead_moveTo (lowestOn_mem hq).1 hx)
  | expireMoved hout hcur hs hl hq =>
    simp only [stop_scx, goto_scx, update_slice]
    exact hold (turnAhead_moveTo (lowestOn_mem hq).1 (turnAhead_stop hx))
  | @wakeLocal c d p hout hp hpt hidle hallow =>
    by_cases hxp : x = p
    · subst hxp
      simpa [System.sliceOf] using taskSlice_pos _
    · rw [put_scx, k8sSelectCpu_scx, on_scx, Function.update_of_ne hxp]
      refine hold (hx.imp .inl (fun c' hl => .inr (.inl ⟨c', ?_⟩))
        fun c' hcur h0 => .inr (.inr ⟨c', hcur, h0⟩))
      by_cases hc : c' = d
      · subst hc
        simpa [hxp] using hl
      · simpa [hc] using hl
  | @run c p ns hout hcur =>
    have hpc : At s p (.cpu c) := hcur
    by_cases hxp : x = p
    · subst hxp
      rcases hx with hq | ⟨c', hl⟩ | ⟨c', hcur', h0⟩
      · exact absurd hq (h.not_at (k := .queued) hpc (by simp))
      · exact absurd hl (h.not_at (k := .waits c') hpc (by simp))
      · obtain rfl : c' = c := by
          by_contra hne
          exact h.not_at (k := .cpu c') hpc (by simpa using Ne.symm hne) hcur'
        simp at h0
        have hone := hold (.inr (.inr ⟨c', hcur, h0.1⟩))
        simpa [System.setSlice, h0.2] using hone
    · simp only [System.setSlice, Function.update_of_ne hxp]
      refine hold (hx.imp .inl (fun c' hl => .inr (.inl ⟨c', hl⟩)) fun c' hcur' h0 => ?_)
      have hc : c' ≠ c := by
        rintro rfl
        exact hxp (Option.some.inj (hcur'.symm.trans hcur))
      exact .inr (.inr ⟨c', hcur', by simpa [hc] using h0⟩)
  | @preemptKeep c p hout hcur hs =>
    simp only [stop_scx, update_slice]
    by_cases hxp : x = p
    · subst hxp
      exact toNat_pos hs
    · refine hold (hx.imp .inl (fun c' hl => .inr (.inl ⟨c', ?_⟩)) fun c' hcur' h0 => ?_)
      · by_cases hc : c' = c
        · subst hc
          simpa [hxp] using hl
        · simpa [hc] using hl
      · exact turnAhead_stop (.inr (.inr ⟨c', hcur', h0⟩))
  | @refill c p hout hcur hs hl hq =>
    by_cases hxp : x = p
    · subst hxp
      simp [System.setSlice, scxSliceDfl]
    · simp only [System.setSlice, Function.update_of_ne hxp]
      exact hold hx
  | @insert c p found pick tp now hpc =>
    by_cases hxp : x = p
    · subst hxp
      simpa using taskSlice_pos tp
    · simp only [goto_scx, put_scx, enqueueInsert_scx, on_scx, Function.update_of_ne hxp]
      refine hold (hx.imp (fun hq => .inl (by simpa [hxp] using hq))
        (fun c' hl => .inr (.inl ⟨c', by simpa using hl⟩)) fun c' hcur h0 => ?_)
      exact .inr (.inr ⟨c', hcur, h0⟩)
  | @pick c p rest hpc hl =>
    refine hold (hx.imp .inl (fun c' hl' => .inr (.inl ⟨c', ?_⟩)) fun c' hcur h0 => ?_)
    · by_cases hc : c' = c
      · subst hc
        rw [hl]
        exact List.mem_cons_of_mem p (by simpa using hl')
      · simpa [hc] using hl'
    · by_cases hc : c' = c
      · subst hc
        obtain rfl : p = x := by simpa using hcur
        exact .inr (.inl ⟨c', by simp [hl]⟩)
      · exact .inr (.inr ⟨c', by simpa [hc] using hcur, by simpa [hc] using h0⟩)

theorem Wf.step (h : Wf s) (hd : Does s a t es) : Wf t where
  fits := by
    obtain ⟨place, hfits⟩ := h.fits
    exact hfits.step h.pcOk hd
  pcOk := h.step_pcOk hd
  allowed := h.step_allowed hd
  slices := h.step_slices hd

end Wf

omit [DecidableEq κ] [DecidableEq τ] in
theorem boot_wf (maps : ParamMaps) (task : τ → Task) (allowed : τ → κ → Bool) :
    Wf (boot maps task allowed) where
  fits := by
    refine ⟨fun _ => .absent, fun p l => ?_, by simp [boot], by simp [boot]⟩
    cases l <;> simp [At, boot, enqueues]
  pcOk := fun _ => trivial
  allowed := by simp [boot]
  slices := by simp [TurnAhead, boot]

theorem run_wf {ok : System κ τ → Smp.Action κ τ → Prop} {s t : System κ τ} {tr : List (Event κ τ)}
    (h : Run step ok s tr t) (hw : Wf s) : Wf t :=
  h.invariant (I := fun _ t => Wf t) hw fun _ _ _ _ _ hw _ hs => hw.step (step_does hs)

/-- A CPU in a callback can go on. -/
theorem Wf.proceeds {s : System κ τ} (h : Wf s) {c : κ} (hc : s.pc c ≠ .outside) :
    (Smp.step s (.proceed c)).isSome := by
  have hok := h.pcOk c
  simp only [Smp.step, proceed]
  cases hpc : s.pc c with
  | outside => exact absurd hpc hc
  | pick =>
    rw [hpc] at hok
    cases hl : s.localDsq c with
    | nil => exact absurd hl hok.2
    | cons p rest => rfl
  | _ => rfl

/-- In every state reached from the start, on any number of CPUs: each task is in
exactly one place, no queue holds a task twice, tasks wait and run where they
may, and no CPU is stuck in a callback. -/
theorem one_place {ok : System κ τ → Smp.Action κ τ → Prop} {maps : ParamMaps} {task : τ → Task}
    {allowed : τ → κ → Bool} {tr : List (Event κ τ)} {s : System κ τ}
    (h : Run step ok (boot maps task allowed) tr s) :
    (∀ p, ∃! l, At s p l) ∧ (s.dsq.Nodup ∧ ∀ c, (s.localDsq c).Nodup) ∧
      (∀ c p, At s p (.cpu c) ∨ At s p (.waits c) → s.allowed p c) ∧
      ∀ c, s.pc c ≠ .outside → (step s (.proceed c)).isSome := by
  have hw := run_wf h (boot_wf maps task allowed)
  obtain ⟨place, hfits⟩ := hw.fits
  refine ⟨fun p => ⟨place p, (hfits.at_iff p _).mpr rfl, fun l hl => ?_⟩,
    hw.nodup, hw.allowed, fun c hc => hw.proceeds hc⟩
  exact ((hfits.at_iff p l).mp hl).symm

/-- A task that one CPU wakes while another CPU takes its first. -/
def overlapping : List (Smp.Action Bool Bool) :=
  [.enable true true, .enable true false, .wake true true none, .proceed true, .proceed true,
    .proceed true, .wake true false none, .balance false, .proceed true, .proceed false,
    .proceed true, .proceed false]

theorem one_place_overlapping :
    ∃ (tr : List (Event Bool Bool)) (s : System Bool Bool),
      Run step (fun _ _ => True) (boot ⟨∅, ∅⟩ (fun _ => ⟨0, none⟩) fun _ _ => true) tr s ∧
        s.curr false = some true ∧ enqueues (s.pc true) = some false ∧ s.pc false = .outside ∧
        ∀ p, ∃! l, At s p l := by
  have h : Run step (fun _ _ => True) (boot (κ := Bool) (τ := Bool) ⟨∅, ∅⟩ (fun _ => ⟨0, none⟩)
      fun _ _ => true) _ _ := Run.of_isSome overlapping (by decide) (by decide)
  exact ⟨_, _, h, by decide, by decide, by decide, (one_place h).1⟩

end K8sSched.Bpf.SmpPlaces
