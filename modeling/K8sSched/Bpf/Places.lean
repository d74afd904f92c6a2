import K8sSched.Bpf.OneCpu

/-! # Where tasks are

A task under the scheduler sleeps, or it holds a slice in exactly one place: on
the CPU, in the local queue or in `K8S_DSQ_ID`. Slices come from an insert or
from the kernel's refill, so they never exceed the latter, and no task waits
with an empty one. -/

namespace K8sSched.Bpf.Places
open K8sSched.Bpf.Params K8sSched.Bpf.Ops K8sSched.Bpf.OneCpu K8sSched.Lib.WrapClock
open K8sSched.Lib.FifoQueue K8sSched.Lib.Runs

variable {V τ : Type} [VClock V] [DecidableEq τ]

section Frame

variable (m : Machine V τ) (s : Sched V τ) (p : τ) (rest : List τ) (slice : U64)

section

omit [DecidableEq τ]

@[simp] theorem switchTo_maps : (switchTo m p rest).maps = m.maps := by simp [switchTo]
@[simp] theorem switchTo_task : (switchTo m p rest).task = m.task := by simp [switchTo]
@[simp] theorem switchTo_scx : (switchTo m p rest).scx = m.scx := by simp [switchTo]
@[simp] theorem switchTo_dsq : (switchTo m p rest).dsq = m.dsq := by simp [switchTo]
@[simp] theorem switchTo_localDsq : (switchTo m p rest).localDsq = rest := by simp [switchTo]
@[simp] theorem switchTo_enabled : (switchTo m p rest).enabled = m.enabled := rfl
@[simp] theorem switchTo_curr : (switchTo m p rest).curr = some p := rfl
@[simp] theorem switchTo_ran : (switchTo m p rest).ran = 0 := rfl
theorem switchTo_vtimeNow : (switchTo m p rest).vtimeNow =
    if VClock.before m.vtimeNow (m.scx p).dsqVtime then (m.scx p).dsqVtime else m.vtimeNow :=
  k8sRunning_vtimeNow _ _

end

@[simp] theorem requeue_vtimeNow : (requeue s p).vtimeNow = s.vtimeNow := rfl
@[simp] theorem requeue_maps : (requeue s p).maps = s.maps := rfl
@[simp] theorem requeue_task : (requeue s p).task = s.task := rfl
@[simp] theorem requeue_scx : (requeue s p).scx = Function.update s.scx p
    ⟨clampVtime s.vtimeNow (VClock.add (s.scx p).dsqVtime (chargeOf s p)), s.sliceOf p⟩ := by
  have hs : (k8sStopping s p).sliceOf p = s.sliceOf p := rfl
  simp [requeue, chargeOf, hs]
@[simp] theorem requeue_dsq : (requeue s p).dsq = s.dsq ++ [p] := rfl
@[simp] theorem requeue_localDsq : (requeue s p).localDsq = s.localDsq := rfl

omit [VClock V] in
@[simp] theorem setSlice_scx : (setSlice m p slice).scx =
    Function.update m.scx p { m.scx p with slice := slice } := rfl

end Frame

/-- The tasks that hold a slice. -/
def held (m : Machine V τ) : List τ := m.curr.toList ++ (m.localDsq ++ m.dsq)

/-- A task is in one place at a time, and the slices of waiting tasks are
neither empty nor larger than the kernel's refill. -/
structure Wf (m : Machine V τ) : Prop where
  nodup : (held m).Nodup
  on : ∀ p ∈ held m, p ∈ m.enabled
  waiting : ∀ p ∈ m.localDsq ++ m.dsq,
    1 ≤ (m.scx p).slice.toNat ∧ (m.scx p).slice.toNat ≤ scxSliceDfl.toNat
  running : ∀ p, m.curr = some p →
    (m.scx p).slice.toNat ≤ scxSliceDfl.toNat ∧ (m.ran = 0 → 1 ≤ (m.scx p).slice.toNat)

section

omit [VClock V] [DecidableEq τ]

theorem held_of_none {m : Machine V τ} (h : m.curr = none) : held m = m.localDsq ++ m.dsq := by
  simp [held, h]

theorem held_of_some {m : Machine V τ} {p : τ} (h : m.curr = some p) :
    held m = p :: (m.localDsq ++ m.dsq) := by
  simp [held, h]

theorem Wf.curr_notMem {m : Machine V τ} (h : Wf m) {p : τ} (hc : m.curr = some p) :
    p ∉ m.localDsq ∧ p ∉ m.dsq := by
  have hn := h.nodup
  rw [held_of_some hc, List.nodup_cons, List.mem_append, not_or] at hn
  exact hn.1

/-- What waits is not on the CPU. -/
theorem Wf.waiting_ne {m : Machine V τ} (h : Wf m) {p q : τ} (hc : m.curr = some p)
    (hq : q ∈ m.localDsq ++ m.dsq) : q ≠ p := by
  intro heq
  obtain ⟨hnl, hnd⟩ := h.curr_notMem hc
  rw [heq] at hq
  exact (List.mem_append.mp hq).elim hnl hnd

theorem Wf.notMem_local {m : Machine V τ} (h : Wf m) {p : τ} (hp : p ∈ m.dsq) :
    p ∉ m.localDsq := by
  have hn := h.nodup
  rw [held, List.nodup_append, List.nodup_append] at hn
  exact fun hl => hn.2.1.2.2 p hl p hp rfl

theorem slice_range (s : Sched V τ) (p : τ) :
    1 ≤ (s.sliceOf p).toNat ∧ (s.sliceOf p).toNat ≤ scxSliceDfl.toNat :=
  ⟨taskSlice_pos _, (taskSlice_le _).trans (by decide)⟩

end

/-- The tasks that hold a slice change by waking up and by falling asleep. -/
theorem does_held {m t : Machine V τ} {a : Action τ} {es : List (Event V τ)} (h : Does m a t es) :
    (∃ p b, a = .wake p b ∧ p ∈ m.enabled ∧ p ∉ held m ∧ (held t).Perm (p :: held m)) ∨
      (∃ p, a = .sleep ∧ m.curr = some p ∧ (held m).Perm (p :: held t)) ∨
        (held t).Perm (held m) := by
  cases h with
  | enable hp => exact .inr (.inr (.refl _))
  | @wakeLocal p hp hd hl hc =>
    refine .inl ⟨p, true, rfl, hp, by simp [held, hc, hd, hl], ?_⟩
    simp only [held, hc, Option.toList_none, List.nil_append, k8sSelectCpu_localDsq,
      k8sSelectCpu_dsq, List.append_assoc, List.singleton_append]
    exact List.perm_middle
  | @wakeQueue p hp hd hl hc =>
    refine .inl ⟨p, false, rfl, hp, ?_, ?_⟩
    · cases hcur : m.curr with
      | none => simp [held, hcur, hd, hl]
      | some q =>
        have hpq : p ≠ q := fun he => hc (by rw [hcur, he])
        simp [held, hcur, hd, hl, hpq]
    · simp only [held, k8sEnqueue_localDsq, k8sEnqueue_dsq, ← List.append_assoc]
      exact List.perm_append_singleton _ _
  | @pickLocal p rest hc hl => exact .inr (.inr (by simp [held, hc, hl]))
  | @pickMoved p hc hl hq =>
    refine .inr (.inr ?_)
    simp only [held, hc, hl, switchTo_curr, switchTo_localDsq, switchTo_dsq, Option.toList_some,
      Option.toList_none, List.nil_append, List.singleton_append]
    exact (List.perm_cons_erase (lowest_mem hq)).symm
  | run hc => exact .inr (.inr (.refl _))
  | @sleep p hc => exact .inr (.inl ⟨p, rfl, hc, by simp [held, hc]⟩)
  | preemptKeep hc hs => exact .inr (.inr (by simp [held, hc]))
  | @preemptQueue p hc hs =>
    refine .inr (.inr ?_)
    simp only [held, hc, Option.toList_none, Option.toList_some, List.nil_append,
      List.singleton_append, requeue_localDsq, requeue_dsq, ← List.append_assoc]
    exact List.perm_append_singleton _ _
  | refill => exact .inr (.inr (.refl _))
  | @expireLocal p q rest hc hs hl =>
    refine .inr (.inr ?_)
    simp only [held, hc, hl, switchTo_curr, switchTo_localDsq, switchTo_dsq, requeue_dsq,
      Option.toList_some, List.cons_append, List.nil_append]
    rw [← List.append_assoc, ← List.cons_append]
    exact List.perm_append_singleton _ _
  | @expireMoved p q hc hs hl hq =>
    refine .inr (.inr ?_)
    simp only [held, hc, hl, switchTo_curr, switchTo_localDsq, switchTo_dsq, requeue_dsq,
      Option.toList_some, List.singleton_append, List.nil_append]
    rw [← List.cons_append]
    refine (List.perm_append_singleton _ _).trans (.cons _ ?_)
    exact (List.perm_cons_erase (lowest_mem hq)).symm
  | setMaps => exact .inr (.inr (.refl _))

theorem does_enabled {m t : Machine V τ} {a : Action τ} {es : List (Event V τ)}
    (h : Does m a t es) : m.enabled ⊆ t.enabled := by
  cases h with
  | enable hp => exact Finset.subset_insert _ _
  | _ => exact subset_rfl

/-- Only the agent writes the maps, and no step changes what a task is. -/
theorem does_maps {m t : Machine V τ} {a : Action τ} {es : List (Event V τ)} (h : Does m a t es)
    (ha : ∀ maps, a ≠ .setMaps maps) : t.maps = m.maps ∧ t.task = m.task := by
  cases h with
  | setMaps => exact absurd rfl (ha _)
  | _ => simp [setSlice]

theorem Wf.step_held {m t : Machine V τ} {a : Action τ} {es : List (Event V τ)} (hw : Wf m)
    (h : Does m a t es) : (held t).Nodup ∧ ∀ p ∈ held t, p ∈ t.enabled := by
  have hsub := does_enabled h
  rcases does_held h with ⟨p, b, -, hp, hn, hperm⟩ | ⟨p, -, -, hperm⟩ | hperm
  · refine ⟨hperm.nodup_iff.mpr (List.nodup_cons.mpr ⟨hn, hw.nodup⟩), fun q hq => hsub ?_⟩
    rcases List.mem_cons.mp (hperm.mem_iff.mp hq) with rfl | hq
    · exact hp
    · exact hw.on q hq
  · have hn := hperm.nodup_iff.mp hw.nodup
    exact ⟨(List.nodup_cons.mp hn).2,
      fun q hq => hsub (hw.on q (hperm.mem_iff.mpr (List.mem_cons_of_mem _ hq)))⟩
  · exact ⟨hperm.nodup_iff.mpr hw.nodup, fun q hq => hsub (hw.on q (hperm.mem_iff.mp hq))⟩

omit [VClock V] in
/-- Charging or enabling a task leaves every slice alone. -/
theorem update_slice (f : τ → ScxEntity V) (p x : τ) (v : V) :
    (Function.update f p ⟨v, (f p).slice⟩ x).slice = (f x).slice := by
  by_cases hx : x = p
  · subst hx; simp
  · simp [hx]

omit [VClock V] in
/-- The range of the slices of waiting tasks after an insert of `p`. -/
theorem range_insert {f : τ → ScxEntity V} {p x : τ} {e : ScxEntity V} {l : List τ}
    (hl : ∀ y ∈ l, 1 ≤ (f y).slice.toNat ∧ (f y).slice.toNat ≤ scxSliceDfl.toNat)
    (he : 1 ≤ e.slice.toNat ∧ e.slice.toNat ≤ scxSliceDfl.toNat) (hx : x = p ∨ x ∈ l) :
    1 ≤ (Function.update f p e x).slice.toNat ∧
      (Function.update f p e x).slice.toNat ≤ scxSliceDfl.toNat := by
  by_cases hxp : x = p
  · subst hxp; simpa using he
  · simpa [hxp] using hl x (hx.resolve_left hxp)

omit [DecidableEq τ] in
/-- A switch to a waiting task, out of a list with slices in range. -/
theorem slices_switchTo {n : Machine V τ} {x : τ} {rest l : List τ}
    (hl : ∀ y ∈ l, 1 ≤ (n.scx y).slice.toNat ∧ (n.scx y).slice.toNat ≤ scxSliceDfl.toNat)
    (hx : x ∈ l) (hsub : ∀ y ∈ rest ++ n.dsq, y ∈ l) :
    (∀ p ∈ (switchTo n x rest).localDsq ++ (switchTo n x rest).dsq,
      1 ≤ ((switchTo n x rest).scx p).slice.toNat ∧
        ((switchTo n x rest).scx p).slice.toNat ≤ scxSliceDfl.toNat) ∧
    ∀ p, (switchTo n x rest).curr = some p →
      ((switchTo n x rest).scx p).slice.toNat ≤ scxSliceDfl.toNat ∧
        ((switchTo n x rest).ran = 0 → 1 ≤ ((switchTo n x rest).scx p).slice.toNat) := by
  simp only [switchTo_localDsq, switchTo_dsq, switchTo_scx, switchTo_curr]
  refine ⟨fun y hy => hl y (hsub y hy), fun y hy => ?_⟩
  obtain rfl : x = y := Option.some.inj hy
  exact ⟨(hl x hx).2, fun _ => (hl x hx).1⟩

/-- The slices after `p` is put back into the shared queue. -/
theorem slices_requeue {s : Sched V τ} {p : τ} {l : List τ}
    (hl : ∀ y ∈ l, 1 ≤ (s.scx y).slice.toNat ∧ (s.scx y).slice.toNat ≤ scxSliceDfl.toNat) :
    ∀ y ∈ p :: l, 1 ≤ ((requeue s p).scx y).slice.toNat ∧
      ((requeue s p).scx y).slice.toNat ≤ scxSliceDfl.toNat := by
  intro y hy
  rw [requeue_scx]
  exact range_insert hl (slice_range _ p) (List.mem_cons.mp hy)

theorem Wf.step_slices {m t : Machine V τ} {a : Action τ} {es : List (Event V τ)} (hw : Wf m)
    (h : Does m a t es) :
    (∀ p ∈ t.localDsq ++ t.dsq,
      1 ≤ (t.scx p).slice.toNat ∧ (t.scx p).slice.toNat ≤ scxSliceDfl.toNat) ∧
    ∀ p, t.curr = some p →
      (t.scx p).slice.toNat ≤ scxSliceDfl.toNat ∧ (t.ran = 0 → 1 ≤ (t.scx p).slice.toNat) := by
  have hwait := hw.waiting
  have hrun := hw.running
  cases h with
  | @enable p hp =>
    simp only [k8sEnable_scx, update_slice, k8sEnable_localDsq, k8sEnable_dsq]
    exact ⟨hwait, hrun⟩
  | @wakeLocal p hp hd hl hc =>
    refine ⟨fun x hx => range_insert hwait (slice_range _ p) ?_, by simp [hc]⟩
    simp only [k8sSelectCpu_localDsq, k8sSelectCpu_dsq, List.mem_append, List.mem_singleton] at hx ⊢
    tauto
  | @wakeQueue p hp hd hl hc =>
    refine ⟨fun x hx => range_insert hwait (slice_range _ p) ?_, fun x hx => ?_⟩
    · simp only [k8sEnqueue_localDsq, k8sEnqueue_dsq, List.mem_append, List.mem_singleton] at hx ⊢
      tauto
    · have hxp : x ≠ p := fun he => hc (he ▸ hx)
      simpa [hxp] using hrun x hx
  | @pickLocal p rest hc hl =>
    rw [hl] at hwait
    exact slices_switchTo hwait (by simp) fun y hy => List.mem_cons_of_mem p hy
  | @pickMoved p hc hl hq =>
    refine slices_switchTo hwait (List.mem_append_right _ (lowest_mem hq)) fun y hy => ?_
    exact List.mem_append_right _ (List.mem_of_mem_erase hy)
  | @run p ns hc =>
    refine ⟨fun x hx => ?_, fun x hx => ?_⟩
    · have hxp : x ≠ p := hw.waiting_ne hc hx
      simpa [hxp] using hwait x hx
    · obtain rfl : p = x := Option.some.inj (hc.symm.trans hx)
      obtain ⟨h1, h2⟩ := hrun p hc
      have hlt := (m.scx p).slice.isLt
      simp only [setSlice_scx, Function.update_self, BitVec.toNat_ofNat]
      rw [Nat.mod_eq_of_lt (by omega)]
      refine ⟨by omega, fun h0 => ?_⟩
      have := h2 (by omega)
      omega
  | @sleep p hc =>
    simp only [k8sStopping_scx, update_slice, k8sStopping_localDsq, k8sStopping_dsq]
    exact ⟨hwait, by simp⟩
  | @preemptKeep p hc hs =>
    simp only [k8sStopping_scx, update_slice, k8sStopping_dsq]
    refine ⟨fun x hx => ?_, by simp⟩
    rcases List.mem_cons.mp hx with rfl | hx
    · exact ⟨toNat_pos hs, (hrun x hc).1⟩
    · exact hwait x hx
  | @preemptQueue p hc hs =>
    refine ⟨fun x hx => ?_, by simp⟩
    simp only [requeue_scx, requeue_localDsq, requeue_dsq, List.mem_append, List.mem_singleton] at hx ⊢
    refine range_insert hwait (slice_range _ p) ?_
    rw [List.mem_append]
    tauto
  | @refill p hc hs hl hd =>
    refine ⟨fun x hx => ?_, fun x hx => ?_⟩
    · simp [setSlice, hl, hd] at hx
    · obtain rfl : p = x := Option.some.inj (hc.symm.trans hx)
      simp [scxSliceDfl]
  | @expireLocal p q rest hc hs hl =>
    rw [hl] at hwait
    refine slices_switchTo (slices_requeue hwait) (by simp) fun y hy => ?_
    simp only [requeue_dsq, List.mem_append, List.mem_cons, List.not_mem_nil, or_false] at hy ⊢
    tauto
  | @expireMoved p q hc hs hl hq =>
    refine slices_switchTo (slices_requeue hwait)
      (List.mem_cons_of_mem p (List.mem_append_right _ (lowest_mem hq))) fun y hy => ?_
    simp only [requeue_dsq, List.nil_append, List.mem_append, List.mem_singleton] at hy
    rcases hy with hy | hy
    · exact List.mem_cons_of_mem p (List.mem_append_right _ (List.mem_of_mem_erase hy))
    · exact hy ▸ List.mem_cons_self
  | setMaps => exact ⟨hwait, hrun⟩

/-- Every step keeps tasks in one place and slices in range. -/
theorem Wf.step {m t : Machine V τ} {a : Action τ} {es : List (Event V τ)} (hw : Wf m)
    (h : Does m a t es) : Wf t :=
  ⟨(hw.step_held h).1, (hw.step_held h).2, (hw.step_slices h).1, (hw.step_slices h).2⟩

/-- A CPU on which nothing has been enabled yet. -/
def boot (s : Sched V τ) : Machine V τ :=
  { s with dsq := [], localDsq := [], enabled := ∅, curr := none, ran := 0 }

omit [VClock V] [DecidableEq τ] in
theorem boot_wf (s : Sched V τ) : Wf (boot s) where
  nodup := by simp [held, boot]
  on := by simp [held, boot]
  waiting := by simp [boot]
  running := by simp [boot]

/-- Every state reached is well formed. -/
theorem run_wf {ok : Machine V τ → Action τ → Prop} {m t : Machine V τ} {tr : List (Event V τ)}
    (h : Run step ok m tr t) (hw : Wf m) : Wf t :=
  h.invariant (I := fun _ t => Wf t) hw fun _ _ _ _ _ hw _ hs => hw.step (step_does hs)

end K8sSched.Bpf.Places
