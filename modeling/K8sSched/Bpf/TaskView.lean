import K8sSched.Bpf.Places

/-! # A step as one task sees it

Most invariants are about each task by itself. `TaskStep` lists what a step of
the machine can do to one task: where it was and is, its virtual time and slice
before and after, and the events about it. -/

namespace K8sSched.Bpf.TaskView
open K8sSched.Bpf.Params K8sSched.Bpf.Ops K8sSched.Bpf.OneCpu K8sSched.Bpf.Places
open K8sSched.Lib.WrapClock K8sSched.Lib.FifoQueue K8sSched.Lib.Runs

variable {V τ : Type} [VClock V] [DecidableEq τ]

/-- Where a task is. -/
inductive Place where
  | absent
  | asleep
  | queued
  | waitsLocal
  | cpu
  deriving DecidableEq

def place (m : Machine V τ) (x : τ) : Place :=
  if m.curr = some x then .cpu
  else if x ∈ m.localDsq then .waitsLocal
  else if x ∈ m.dsq then .queued
  else if x ∈ m.enabled then .asleep
  else .absent

/-- The task an event is about. -/
def eventTask : Event V τ → τ
  | .enabled p _ | .moved p | .ran p _ | .stopped p _ | .refilled p => p

/-- What a step does to the task `x`. -/
inductive TaskStep (m : Machine V τ) (x : τ) (t : Machine V τ) :
    Action τ → List (Event V τ) → Prop
  | stay {a : Action τ} {es : List (Event V τ)} (hp : place t x = place m x)
      (hs : t.scx x = m.scx x) (hr : m.curr = some x → t.ran = m.ran)
      (hes : ∀ e ∈ es, eventTask e ≠ x) : TaskStep m x t a es
  | enable (hm : place m x = .absent) (ht : place t x = .asleep)
      (hs : t.scx x = ⟨m.vtimeNow, (m.scx x).slice⟩) :
      TaskStep m x t (.enable x) [.enabled x m.vtimeNow]
  | wakeLocal (hm : place m x = .asleep) (ht : place t x = .waitsLocal)
      (hs : t.scx x = ⟨(m.scx x).dsqVtime, m.sliceOf x⟩) : TaskStep m x t (.wake x true) []
  | wakeQueue (hm : place m x = .asleep) (ht : place t x = .queued)
      (hs : t.scx x = ⟨clampVtime m.vtimeNow (m.scx x).dsqVtime, m.sliceOf x⟩) :
      TaskStep m x t (.wake x false) []
  | resume {a : Action τ} {es : List (Event V τ)} (hm : place m x = .waitsLocal)
      (ht : place t x = .cpu) (hs : t.scx x = m.scx x) (hr : t.ran = 0)
      (hes : ∀ e ∈ es, eventTask e ≠ x) : TaskStep m x t a es
  | move {a : Action τ} {es : List (Event V τ)} (hm : place m x = .queued) (ht : place t x = .cpu)
      (hs : t.scx x = m.scx x) (hr : t.ran = 0) (hl : m.localDsq = [])
      (hq : m.lowestVtime = some x) (hes : ∀ e ∈ es, eventTask e ≠ x) :
      TaskStep m x t a (.moved x :: es)
  | run {ns : Nat} (hm : place m x = .cpu) (ht : place t x = .cpu)
      (hs : t.scx x = ⟨(m.scx x).dsqVtime, BitVec.ofNat 64 ((m.scx x).slice.toNat - ns)⟩)
      (hr : t.ran = m.ran + ns) : TaskStep m x t (.run ns) [.ran x ns]
  | sleep (hm : place m x = .cpu) (ht : place t x = .asleep)
      (hs : t.scx x = ⟨VClock.add (m.scx x).dsqVtime (chargeOf m.toSched x), (m.scx x).slice⟩) :
      TaskStep m x t .sleep [.stopped x (chargeOf m.toSched x)]
  | keep (hm : place m x = .cpu) (ht : place t x = .waitsLocal)
      (hs : t.scx x = ⟨VClock.add (m.scx x).dsqVtime (chargeOf m.toSched x), (m.scx x).slice⟩)
      (h0 : (m.scx x).slice ≠ 0) : TaskStep m x t .preempt [.stopped x (chargeOf m.toSched x)]
  | requeue {a : Action τ} (es : List (Event V τ)) (ha : a = .preempt ∨ a = .expire)
      (hm : place m x = .cpu) (ht : place t x = .queued)
      (hs : t.scx x = ⟨clampVtime m.vtimeNow
        (VClock.add (m.scx x).dsqVtime (chargeOf m.toSched x)), m.sliceOf x⟩)
      (h0 : (m.scx x).slice = 0) (hes : ∀ e ∈ es, eventTask e ≠ x) :
      TaskStep m x t a (es ++ [.stopped x (chargeOf m.toSched x)])
  | refill (hm : place m x = .cpu) (ht : place t x = .cpu)
      (hs : t.scx x = ⟨(m.scx x).dsqVtime, scxSliceDfl⟩) (hr : t.ran = m.ran)
      (h0 : (m.scx x).slice = 0) (hl : m.localDsq = []) (hd : m.dsq = []) :
      TaskStep m x t .expire [.refilled x]

/-! ## Places -/

section Place

variable {m t : Machine V τ} {x : τ}

omit [VClock V]

theorem place_cpu : place m x = .cpu ↔ m.curr = some x := by
  unfold place
  by_cases hc : m.curr = some x
  · simp [hc]
  · by_cases hl : x ∈ m.localDsq
    · simp [hc, hl]
    · by_cases hd : x ∈ m.dsq
      · simp [hc, hl, hd]
      · by_cases he : x ∈ m.enabled <;> simp [hc, hl, hd, he]

theorem place_of_local (hw : Wf m) (h : x ∈ m.localDsq) : place m x = .waitsLocal := by
  have hc : m.curr ≠ some x := fun hc => (hw.curr_notMem hc).1 h
  simp [place, hc, h]

theorem place_of_dsq (hw : Wf m) (h : x ∈ m.dsq) : place m x = .queued := by
  have hc : m.curr ≠ some x := fun hc => (hw.curr_notMem hc).2 h
  simp [place, hc, hw.notMem_local h, h]

theorem place_queued (hw : Wf m) : place m x = .queued ↔ x ∈ m.dsq := by
  refine ⟨fun h => ?_, place_of_dsq hw⟩
  by_contra hd
  unfold place at h
  rw [if_neg hd] at h
  split at h
  · cases h
  · split at h
    · cases h
    · split at h <;> cases h

theorem place_local (hw : Wf m) : place m x = .waitsLocal ↔ x ∈ m.localDsq := by
  refine ⟨fun h => ?_, place_of_local hw⟩
  by_contra hl
  unfold place at h
  rw [if_neg hl] at h
  split at h
  · cases h
  · split at h
    · cases h
    · split at h <;> cases h

theorem place_absent (hw : Wf m) : place m x = .absent ↔ x ∉ m.enabled := by
  constructor
  · intro h he
    unfold place at h
    rw [if_pos he] at h
    split at h
    · cases h
    · split at h
      · cases h
      · split at h <;> cases h
  · intro he
    have hn : x ∉ held m := fun h => he (hw.on x h)
    simp only [held, List.mem_append, Option.mem_toList, not_or] at hn
    have hc : m.curr ≠ some x := hn.1
    simp [place, hc, hn.2.1, hn.2.2, he]

theorem place_of_asleep (hc : m.curr ≠ some x) (hl : x ∉ m.localDsq) (hd : x ∉ m.dsq)
    (he : x ∈ m.enabled) : place m x = .asleep := by
  simp [place, hc, hl, hd, he]

theorem place_congr (hc : t.curr = some x ↔ m.curr = some x) (hl : x ∈ t.localDsq ↔ x ∈ m.localDsq)
    (hd : x ∈ t.dsq ↔ x ∈ m.dsq) (he : x ∈ t.enabled ↔ x ∈ m.enabled) :
    place t x = place m x := by
  simp only [place, hc, hl, hd, he]

end Place

theorem does_taskStep {m t : Machine V τ} {a : Action τ} {es : List (Event V τ)} (hw : Wf m)
    (hd : Does m a t es) (x : τ) : TaskStep m x t a es := by
  have hwt := hw.step hd
  cases hd with
  | @enable p hp =>
    by_cases hx : x = p
    · subst hx
      have hn : x ∉ held m := fun h => hp (hw.on x h)
      simp only [held, List.mem_append, Option.mem_toList, not_or] at hn
      refine .enable ((place_absent hw).mpr hp) ?_ (by simp)
      exact place_of_asleep hn.1 hn.2.1 hn.2.2 (by simp)
    · refine .stay ?_ (by simp [hx]) (fun _ => rfl) (by simp [eventTask, Ne.symm hx])
      exact place_congr (by simp) (by simp) (by simp) (by simp [hx])
  | @wakeLocal p hp hdq hl hc =>
    by_cases hx : x = p
    · subst hx
      refine .wakeLocal (place_of_asleep (by simp [hc]) hl hdq hp) ?_ (by simp)
      exact place_of_local hwt (by simp)
    · refine .stay ?_ (by simp [hx]) (fun _ => rfl) (by simp)
      exact place_congr (by simp) (by simp [hx]) (by simp) (by simp)
  | @wakeQueue p hp hdq hl hc =>
    by_cases hx : x = p
    · subst hx
      refine .wakeQueue (place_of_asleep hc hl hdq hp) ?_ (by simp)
      exact place_of_dsq hwt (by simp)
    · refine .stay ?_ (by simp [hx]) (fun _ => rfl) (by simp)
      exact place_congr (by simp) (by simp) (by simp [hx]) (by simp)
  | @pickLocal p rest hc hl =>
    by_cases hx : x = p
    · subst hx
      exact .resume (place_of_local hw (by simp [hl])) (place_cpu.mpr rfl) (by simp) rfl (by simp)
    · refine .stay ?_ (by simp) (by simp [hc]) (by simp)
      exact place_congr (by simp [hc, Ne.symm hx]) (by simp [hl, hx]) (by simp) (by simp)
  | @pickMoved p hc hl hq =>
    by_cases hx : x = p
    · subst hx
      exact .move (place_of_dsq hw (lowest_mem hq)) (place_cpu.mpr rfl) (by simp) rfl hl hq (by simp)
    · refine .stay ?_ (by simp) (by simp [hc]) (by simp [eventTask, Ne.symm hx])
      refine place_congr (by simp [hc, Ne.symm hx]) (by simp [hl]) ?_ (by simp)
      simp [List.mem_erase_of_ne hx]
  | @run p ns hc =>
    by_cases hx : x = p
    · subst hx
      exact .run (place_cpu.mpr hc) (place_cpu.mpr hc) (by simp) rfl
    · refine .stay ?_ (by simp [hx]) (by simp [hc, Ne.symm hx]) (by simp [eventTask, Ne.symm hx])
      exact place_congr Iff.rfl Iff.rfl Iff.rfl Iff.rfl
  | @sleep p hc =>
    by_cases hx : x = p
    · subst hx
      obtain ⟨hnl, hnd⟩ := hw.curr_notMem hc
      refine .sleep (place_cpu.mpr hc) ?_ (by simp [chargeOf])
      exact place_of_asleep (by simp) hnl hnd (hw.on x (by simp [held, hc]))
    · refine .stay ?_ (by simp [hx]) (by simp [hc, Ne.symm hx]) (by simp [eventTask, Ne.symm hx])
      exact place_congr (by simp [hc, Ne.symm hx]) (by simp) (by simp) (by simp)
  | @preemptKeep p hc hs =>
    by_cases hx : x = p
    · subst hx
      exact .keep (place_cpu.mpr hc) (place_of_local hwt (by simp)) (by simp [chargeOf]) hs
    · refine .stay ?_ (by simp [hx]) (by simp [hc, Ne.symm hx]) (by simp [eventTask, Ne.symm hx])
      exact place_congr (by simp [hc, Ne.symm hx]) (by simp [hx]) (by simp) (by simp)
  | @preemptQueue p hc hs =>
    by_cases hx : x = p
    · subst hx
      exact .requeue [] (.inl rfl) (place_cpu.mpr hc) (place_of_dsq hwt (by simp)) (by simp)
        hs (by simp)
    · refine .stay ?_ (by simp [hx]) (by simp [hc, Ne.symm hx]) (by simp [eventTask, Ne.symm hx])
      exact place_congr (by simp [hc, Ne.symm hx]) (by simp) (by simp [hx]) (by simp)
  | @refill p hc hs hl hdq =>
    by_cases hx : x = p
    · subst hx
      exact .refill (place_cpu.mpr hc) (place_cpu.mpr hc) (by simp) rfl hs hl hdq
    · refine .stay ?_ (by simp [hx]) (fun _ => rfl) (by simp [eventTask, Ne.symm hx])
      exact place_congr Iff.rfl Iff.rfl Iff.rfl Iff.rfl
  | @expireLocal p q rest hc hs hl =>
    by_cases hx : x = p
    · subst hx
      exact .requeue [] (.inr rfl) (place_cpu.mpr hc) (place_of_dsq hwt (by simp)) (by simp)
        hs (by simp)
    · by_cases hxq : x = q
      · subst hxq
        exact .resume (place_of_local hw (by simp [hl])) (place_cpu.mpr rfl) (by simp [hx]) rfl
          (by simp [eventTask, Ne.symm hx])
      · refine .stay ?_ (by simp [hx]) (by simp [hc, Ne.symm hx]) (by simp [eventTask, Ne.symm hx])
        exact place_congr (by simp [hc, Ne.symm hx, Ne.symm hxq]) (by simp [hl, hxq])
          (by simp [hx]) (by simp)
  | @expireMoved p q hc hs hl hq =>
    have hqp : q ≠ p := hw.waiting_ne hc (List.mem_append_right _ (lowest_mem hq))
    by_cases hx : x = p
    · subst hx
      refine .requeue [.moved q] (.inr rfl) (place_cpu.mpr hc) (place_of_dsq hwt (by simp))
        ?_ hs (by simp [eventTask, hqp])
      rw [switchTo_scx, requeue_scx, Function.update_self]
      rfl
    · by_cases hxq : x = q
      · subst hxq
        exact .move (place_of_dsq hw (lowest_mem hq)) (place_cpu.mpr rfl) (by simp [hx]) rfl hl hq
          (by simp [eventTask, Ne.symm hx])
      · refine .stay ?_ (by simp [hx]) (by simp [hc, Ne.symm hx])
          (by simp [eventTask, Ne.symm hx, Ne.symm hxq])
        exact place_congr (by simp [hc, Ne.symm hx, Ne.symm hxq]) (by simp [hl])
          (by simp [hx, List.mem_erase_of_ne hxq]) (by simp)
  | setMaps =>
    exact .stay (place_congr Iff.rfl Iff.rfl Iff.rfl Iff.rfl) rfl (fun _ => rfl) (by simp)

section

variable {m t : Machine V τ} {a : Action τ} {es : List (Event V τ)} {x : τ}

/-- A queued task stays as it is until it is moved. -/
theorem TaskStep.of_queued (h : TaskStep m x t a es) (hq : place m x = .queued) :
    (place t x = .queued ∧ t.scx x = m.scx x ∧ ∀ e ∈ es, eventTask e ≠ x) ∨
      (place t x = .cpu ∧ ∃ es', es = .moved x :: es') := by
  cases h with
  | stay hp hs hr hes => exact .inl ⟨hp.trans hq, hs, hes⟩
  | move hm ht hs hr hl hlow hes => exact .inr ⟨ht, _, rfl⟩
  | _ => simp_all

/-- A task that comes into the queue has the slice of its parameters. -/
theorem TaskStep.of_inserted (h : TaskStep m x t a es) (hn : place m x ≠ .queued)
    (ht : place t x = .queued) : (t.scx x).slice = m.sliceOf x := by
  cases h with
  | stay hp hs hr hes => exact absurd (hp.symm.trans ht) hn
  | wakeQueue hm ht' hs => rw [hs]
  | requeue es ha hm ht' hs h0 hes => rw [hs]
  | _ => simp_all

/-- A task that becomes known to the scheduler starts at the clock. -/
theorem TaskStep.of_absent (h : TaskStep m x t a es) (hm : place m x = .absent) :
    (place t x = .absent ∧ ∀ e ∈ es, eventTask e ≠ x) ∨
      (place t x = .asleep ∧ es = [.enabled x m.vtimeNow] ∧
        (t.scx x).dsqVtime = m.vtimeNow) := by
  cases h with
  | stay hp hs hr hes => exact .inl ⟨hp.trans hm, hes⟩
  | enable hm' ht hs => exact .inr ⟨ht, rfl, by rw [hs]⟩
  | _ => simp_all

end

/-! ## The queue, the clock and the events -/

/-- `K8S_DSQ_ID` loses at most the task that is moved and gains tasks at its end. -/
theorem does_dsq {m t : Machine V τ} {a : Action τ} {es : List (Event V τ)} (hw : Wf m)
    (hd : Does m a t es) : ∃ ins : List τ, (∀ p ∈ ins, p ∉ m.dsq) ∧
      (t.dsq = m.dsq ++ ins ∨
        ∃ q, m.lowestVtime = some q ∧ place t q = .cpu ∧ t.dsq = m.dsq.erase q ++ ins) := by
  cases hd with
  | @wakeQueue p hp hdq hl hc => exact ⟨[p], by simpa using hdq, .inl rfl⟩
  | @pickMoved p hc hl hq => exact ⟨[], by simp, .inr ⟨p, hq, place_cpu.mpr rfl, by simp⟩⟩
  | @preemptQueue p hc hs => exact ⟨[p], by simpa using (hw.curr_notMem hc).2, .inl rfl⟩
  | @expireLocal p q rest hc hs hl =>
    exact ⟨[p], by simpa using (hw.curr_notMem hc).2, .inl (by simp)⟩
  | @expireMoved p q hc hs hl hq =>
    exact ⟨[p], by simpa using (hw.curr_notMem hc).2, .inr ⟨q, hq, place_cpu.mpr rfl, by simp⟩⟩
  | _ => exact ⟨[], by simp, .inl (by simp [setSlice])⟩

/-- The clock moves only up to the virtual time of a task that gets the CPU. -/
theorem does_vtimeNow {m t : Machine V τ} {a : Action τ} {es : List (Event V τ)}
    (hd : Does m a t es) : t.vtimeNow = m.vtimeNow ∨
      ∃ p, t.curr = some p ∧ VClock.before m.vtimeNow (t.scx p).dsqVtime = true ∧
        t.vtimeNow = (t.scx p).dsqVtime := by
  have hswitch : ∀ (m' : Machine V τ) (q : τ) (rest : List τ), m'.vtimeNow = m.vtimeNow →
      (switchTo m' q rest).vtimeNow = m.vtimeNow ∨
        ∃ p, (switchTo m' q rest).curr = some p ∧
          VClock.before m.vtimeNow ((switchTo m' q rest).scx p).dsqVtime = true ∧
          (switchTo m' q rest).vtimeNow = ((switchTo m' q rest).scx p).dsqVtime := by
    intro m' q rest hm
    rw [switchTo_vtimeNow, hm]
    by_cases hb : VClock.before m.vtimeNow (m'.scx q).dsqVtime = true
    · exact .inr ⟨q, rfl, by rw [switchTo_scx]; exact hb, by rw [if_pos hb, switchTo_scx]⟩
    · exact .inl (if_neg hb)
  cases hd with
  | pickLocal => exact hswitch _ _ _ rfl
  | pickMoved => exact hswitch _ _ _ rfl
  | expireLocal => exact hswitch _ _ _ rfl
  | expireMoved => exact hswitch _ _ _ rfl
  | _ => exact .inl rfl

/-- Events are about tasks that are enabled, and a task is enabled once. -/
theorem does_events {m t : Machine V τ} {a : Action τ} {es : List (Event V τ)} (hw : Wf m)
    (hd : Does m a t es) : (∀ e ∈ es, eventTask e ∈ t.enabled) ∧
      ∀ x v, .enabled x v ∈ es → x ∉ m.enabled := by
  have hcur : ∀ p, m.curr = some p → p ∈ m.enabled := fun p hc => hw.on p (by simp [held, hc])
  have hlow : ∀ p, m.lowestVtime = some p → p ∈ m.enabled := fun p hq =>
    hw.on p (List.mem_append_right _ (List.mem_append_right _ (lowest_mem hq)))
  cases hd with
  | @enable p hp => exact ⟨by simp [eventTask], by simpa using hp⟩
  | pickMoved hc hl hq => exact ⟨by simpa [eventTask] using hlow _ hq, by simp⟩
  | run hc => exact ⟨by simpa [eventTask, setSlice] using hcur _ hc, by simp⟩
  | sleep hc => exact ⟨by simpa [eventTask] using hcur _ hc, by simp⟩
  | preemptKeep hc => exact ⟨by simpa [eventTask] using hcur _ hc, by simp⟩
  | preemptQueue hc => exact ⟨by simpa [eventTask] using hcur _ hc, by simp⟩
  | refill hc => exact ⟨by simpa [eventTask, setSlice] using hcur _ hc, by simp⟩
  | expireLocal hc => exact ⟨by simpa [eventTask] using hcur _ hc, by simp⟩
  | expireMoved hc hs hl hq =>
    exact ⟨by simpa [eventTask] using ⟨hlow _ hq, hcur _ hc⟩, by simp⟩
  | _ => exact ⟨by simp, by simp⟩

end K8sSched.Bpf.TaskView
