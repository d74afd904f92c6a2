import K8sSched.Bpf.Places

/-! # The budget as a cap while others wait

The slice is set at insert time only. A task that is alone when its slice ends
is kept on the CPU with the kernel's default slice, and a task that arrives then
waits for the rest of it. With fixed map entries this is the only way past the
cap: a run keeps the cap in all its states exactly when no task arrives, and no
preempted task resumes before a waiting one, in the part of a refill that
exceeds the slice of the parameters. -/

namespace K8sSched.Bpf.BudgetCap
open K8sSched.Bpf.Params K8sSched.Bpf.Ops K8sSched.Bpf.OneCpu K8sSched.Bpf.Places
open K8sSched.Lib.WrapClock K8sSched.Lib.FifoQueue K8sSched.Lib.Runs

variable {V τ : Type} [VClock V] [DecidableEq τ]

/-- A step with the map entries left as they are. -/
def stepFixed (m : Machine V τ) : Action τ → Option (Machine V τ × List (Event V τ))
  | .setMaps _ => none
  | a => step m a

theorem stepFixed_does {m t : Machine V τ} {a : Action τ} {es : List (Event V τ)}
    (h : stepFixed m a = some (t, es)) : Does m a t es ∧ t.maps = m.maps ∧ t.task = m.task := by
  have hd : Does m a t es ∧ ∀ maps, a ≠ .setMaps maps := by
    cases a with
    | setMaps maps => cases h
    | _ => exact ⟨step_does h, by simp⟩
  exact ⟨hd.1, does_maps hd.1 hd.2⟩

/-- Whenever another task waits in `K8S_DSQ_ID`, the running task has at most
the slice of its parameters left. -/
def Capped (m : Machine V τ) : Prop :=
  ∀ p, m.curr = some p → (∃ q ∈ m.dsq, q ≠ p) → (m.scx p).slice.toNat ≤ (m.sliceOf p).toNat

/-- A task that has more slice left than its parameters give. -/
def Over (m : Machine V τ) (p : τ) : Prop := (m.sliceOf p).toNat < (m.scx p).slice.toNat

/-- Nobody is made to wait behind the excess of a refill: no task enters
`K8S_DSQ_ID` while the running task is in it, and a task preempted in it does
not resume while a task waits there. -/
def Spares (m : Machine V τ) : Action τ → Prop
  | .wake _ false => ∀ p, m.curr = some p → ¬ Over m p
  | .pick => ∀ p, m.localDsq.head? = some p → m.dsq ≠ [] → ¬ Over m p
  | _ => True

/-! ## Only a refill puts a task over its slice -/

section Over

variable {m t : Machine V τ} {p x : τ}

omit [VClock V] [DecidableEq τ] in
theorem over_of_le (hm : t.maps = m.maps) (ht : t.task = m.task)
    (hs : (t.scx x).slice.toNat ≤ (m.scx x).slice.toNat) (h : Over t x) : Over m x := by
  unfold Over at h ⊢
  rw [sliceOf_congr hm ht] at h
  omega

omit [VClock V] in
/-- A task just inserted has the slice of its parameters. -/
theorem not_over_insert {v : V} (hm : t.maps = m.maps) (ht : t.task = m.task)
    (hs : t.scx = Function.update m.scx p ⟨v, m.sliceOf p⟩) : ¬ Over t p := by
  unfold Over
  rw [sliceOf_congr hm ht, hs]
  simp

omit [VClock V] in
theorem over_insert {v : V} (hm : t.maps = m.maps) (ht : t.task = m.task)
    (hs : t.scx = Function.update m.scx p ⟨v, m.sliceOf p⟩) (h : Over t x) :
    x ≠ p ∧ Over m x := by
  have hx : x ≠ p := by
    rintro rfl
    exact not_over_insert hm ht hs h
  refine ⟨hx, over_of_le hm ht ?_ h⟩
  rw [hs]
  simp [hx]

end Over

theorem does_over {m t : Machine V τ} {a : Action τ} {es : List (Event V τ)} {x : τ}
    (hd : Does m a t es) (hm : t.maps = m.maps) (ht : t.task = m.task) (h : Over t x) :
    Over m x ∨ es = [.refilled x] := by
  cases hd with
  | wakeLocal => exact .inl (over_insert hm ht rfl h).2
  | wakeQueue => exact .inl (over_insert hm ht rfl h).2
  | preemptQueue => exact .inl (over_insert hm ht (requeue_scx _ _) h).2
  | @expireLocal p => exact .inl (over_insert hm ht ((switchTo_scx ..).trans (requeue_scx _ p)) h).2
  | @expireMoved p => exact .inl (over_insert hm ht ((switchTo_scx ..).trans (requeue_scx _ p)) h).2
  | @refill p =>
    by_cases hx : x = p
    · exact .inr (by rw [hx])
    · refine .inl (over_of_le hm ht ?_ h)
      simp [hx]
  | @run p ns =>
    refine .inl (over_of_le hm ht ?_ h)
    by_cases hx : x = p
    · subst hx
      have := (m.scx x).slice.isLt
      simp only [setSlice_scx, Function.update_self, BitVec.toNat_ofNat]
      omega
    · simp [hx]
  | _ =>
    refine .inl (over_of_le hm ht (le_of_eq ?_) h)
    simp [update_slice]

/-- A task that holds more than its slice did not just wake up. -/
theorem held_of_over {m t : Machine V τ} {a : Action τ} {es : List (Event V τ)} {x : τ}
    (hd : Does m a t es) (hm : t.maps = m.maps) (ht : t.task = m.task) (hx : x ∈ held t)
    (h : Over t x) : x ∈ held m := by
  rcases does_held hd with ⟨p, b, rfl, -, -, hperm⟩ | ⟨p, -, -, hperm⟩ | hperm
  · rcases List.mem_cons.mp (hperm.mem_iff.mp hx) with rfl | hx
    · cases hd with
      | wakeLocal => exact absurd h (not_over_insert hm ht rfl)
      | wakeQueue => exact absurd h (not_over_insert hm ht rfl)
    · exact hx
  · exact hperm.mem_iff.mpr (List.mem_cons_of_mem _ hx)
  · exact hperm.mem_iff.mp hx

/-! ## Where a task over its slice is -/

/-- A task that holds more than its slice is on the CPU, or it was preempted
and resumes next. -/
structure Inv (m : Machine V τ) : Prop where
  wf : Wf m
  excess : ∀ x ∈ held m, Over m x →
    m.curr = some x ∨ (m.curr = none ∧ m.localDsq.head? = some x)

theorem Inv.step {m t : Machine V τ} {a : Action τ} {es : List (Event V τ)} (hI : Inv m)
    (hd : Does m a t es) (hm : t.maps = m.maps) (ht : t.task = m.task) : Inv t := by
  refine ⟨hI.wf.step hd, fun x hx hover => ?_⟩
  have hwas := fun h => hI.excess x (held_of_over hd hm ht hx hover) h
  have hbefore := (does_over hd hm ht hover).imp_left hwas
  clear hwas
  cases hd with
  | enable hp => simpa using hbefore
  | @wakeLocal p hp hdq hl hc =>
    simp only [hc, reduceCtorEq, false_or, or_false, true_and, List.nil_eq] at hbefore ⊢
    obtain ⟨l, hl⟩ := List.head?_eq_some_iff.mp hbefore
    simp [hl]
  | wakeQueue => simpa using hbefore
  | @pickLocal p rest hc hl => simpa [hc, hl] using hbefore
  | pickMoved hc hl => simp [hc, hl] at hbefore
  | run hc => simpa [setSlice] using hbefore
  | @sleep p hc =>
    obtain rfl : p = x := by simpa [hc] using hbefore
    obtain ⟨hnl, hnd⟩ := hI.wf.curr_notMem hc
    simp [held, hnl, hnd] at hx
  | @preemptKeep p hc hs => simpa [hc] using hbefore
  | @preemptQueue p hc hs =>
    obtain rfl : p = x := by simpa [hc] using hbefore
    exact absurd hover (not_over_insert hm ht (requeue_scx _ _))
  | @refill p hc hs hl hdq =>
    have hx : x = p := by simpa [held, setSlice, hc, hl, hdq] using hx
    exact .inl (by rw [hx]; exact hc)
  | @expireLocal p q rest hc hs hl =>
    obtain rfl : p = x := by simpa [hc] using hbefore
    exact absurd hover (not_over_insert hm ht ((switchTo_scx ..).trans (requeue_scx _ p)))
  | @expireMoved p q hc hs hl hq =>
    obtain rfl : p = x := by simpa [hc] using hbefore
    exact absurd hover (not_over_insert hm ht ((switchTo_scx ..).trans (requeue_scx _ p)))
  | setMaps => simpa using hbefore

/-! ## The cap -/

section

omit [VClock V] [DecidableEq τ]

/-- The cap says that the running task is not over its slice. -/
theorem capped_iff {m : Machine V τ} {p : τ} (hw : Wf m) (hc : m.curr = some p) :
    Capped m ↔ (m.dsq ≠ [] → ¬ Over m p) := by
  have hnd := (hw.curr_notMem hc).2
  have hex : (∃ q ∈ m.dsq, q ≠ p) ↔ m.dsq ≠ [] := by
    constructor
    · rintro ⟨q, hq, -⟩
      exact List.ne_nil_of_mem hq
    · intro h
      obtain ⟨q, hq⟩ := List.exists_mem_of_ne_nil _ h
      exact ⟨q, hq, fun he => hnd (he ▸ hq)⟩
  simp only [Capped, Over, hc, Option.some.injEq, forall_eq', hex, not_lt]

theorem capped_of_none {m : Machine V τ} (hc : m.curr = none) : Capped m := by
  simp [Capped, hc]

theorem capped_of_same {m t : Machine V τ} (hc : t.curr = m.curr) (hdq : t.dsq = m.dsq)
    (hover : ∀ x, Over t x → Over m x) (hcap : Capped m) : Capped t := by
  intro p hp hq
  rw [hc] at hp
  rw [hdq] at hq
  exact not_lt.mp fun h => (hover p h).not_ge (hcap p hp hq)

/-- While a task is on the CPU, none that waits has more than its slice. -/
theorem Inv.not_over_waiting {m : Machine V τ} (hI : Inv m) {p q : τ} (hc : m.curr = some p)
    (hq : q ∈ m.localDsq ++ m.dsq) : ¬ Over m q := by
  intro h
  have hexcess := hI.excess q (List.mem_append_right _ hq) h
  obtain rfl : p = q := by simpa [hc] using hexcess
  exact hI.wf.waiting_ne hc hq rfl

end

/-- From a state that keeps the cap, a step leads to one that keeps it exactly
when nobody starts to wait behind an excess. -/
theorem Inv.capped_step {m t : Machine V τ} {a : Action τ} {es : List (Event V τ)} (hI : Inv m)
    (hcap : Capped m) (hd : Does m a t es) (hm : t.maps = m.maps) (ht : t.task = m.task) :
    Capped t ↔ Spares m a := by
  have hwt := hI.wf.step hd
  have hback : ∀ x, Over t x → Over m x ∨ es = [.refilled x] := fun x => does_over hd hm ht
  cases hd with
  | enable hp =>
    refine iff_of_true (capped_of_same (m := m) rfl rfl ?_ hcap) trivial
    exact fun x hx => (hback x hx).resolve_right (by simp)
  | wakeLocal hp hdq hl hc => exact iff_of_true (capped_of_none hc) trivial
  | @wakeQueue p hp hdq hl hc =>
    rcases hcur : m.curr with _ | q
    · exact iff_of_true (capped_of_none rfl) (by simp [Spares, hcur])
    · have hne : q ≠ p := fun he => hc (he ▸ hcur)
      rw [← hcur, capped_iff hwt hcur]
      simp [Spares, hcur, Over, sliceOf_congr hm ht, hne]
  | @pickLocal p rest hc hl =>
    rw [capped_iff hwt (switchTo_curr ..)]
    simp [Spares, hl, Over, sliceOf_congr hm ht]
  | @pickMoved p hc hl hq =>
    rw [capped_iff hwt (switchTo_curr ..)]
    have hp : p ∈ held m := by
      rw [held_of_none hc]
      exact List.mem_append_right _ (lowest_mem hq)
    have hnot : ¬ Over m p := fun h => by simpa [hc, hl] using hI.excess p hp h
    refine iff_of_true (fun _ h => ?_) (by simp [Spares, hl])
    exact hnot ((hback p h).resolve_right (by simp))
  | run hc =>
    refine iff_of_true (capped_of_same (m := m) rfl rfl ?_ hcap) trivial
    exact fun x hx => (hback x hx).resolve_right (by simp)
  | sleep hc => exact iff_of_true (capped_of_none rfl) trivial
  | preemptKeep hc hs => exact iff_of_true (capped_of_none rfl) trivial
  | preemptQueue hc hs => exact iff_of_true (capped_of_none rfl) trivial
  | @refill p hc hs hl hdq =>
    rw [capped_iff hwt hc]
    simp [Spares, setSlice, hdq]
  | @expireLocal p q rest hc hs hl =>
    rw [capped_iff hwt (switchTo_curr ..)]
    have hnot : ¬ Over m q := hI.not_over_waiting hc (by simp [hl])
    exact iff_of_true (fun _ h => hnot ((hback q h).resolve_right (by simp))) trivial
  | @expireMoved p q hc hs hl hq =>
    rw [capped_iff hwt (switchTo_curr ..)]
    have hnot : ¬ Over m q := hI.not_over_waiting hc (List.mem_append_right _ (lowest_mem hq))
    exact iff_of_true (fun _ h => hnot ((hback q h).resolve_right (by simp))) trivial
  | setMaps =>
    refine iff_of_true (capped_of_same (m := m) rfl rfl ?_ hcap) trivial
    exact fun x hx => (hback x hx).resolve_right (by simp)

omit [VClock V] [DecidableEq τ] in
theorem boot_inv (s : Sched V τ) : Inv (boot s) where
  wf := boot_wf s
  excess := by simp [held, boot]

/-- With fixed map entries, the cap holds in every state of a run from an idle
CPU exactly when nobody starts to wait behind the excess of a refill. -/
theorem capped_iff_spares (s : Sched U64 τ) (as : List (Action τ)) :
    AllStates stepFixed Capped (boot s) as ↔ AllSteps stepFixed Spares (boot s) as := by
  refine allStates_iff_allSteps (I := Inv) ?_ ?_ (boot_inv s) (capped_of_none rfl) as
  · intro m a t es hI hs
    obtain ⟨hd, hm, ht⟩ := stepFixed_does hs
    exact hI.step hd hm ht
  · intro m a t es hI hcap hs
    obtain ⟨hd, hm, ht⟩ := stepFixed_does hs
    exact hI.capped_step hcap hd hm ht

/-- A task with a budget of 2 ms is alone when its slice ends and is refilled;
a task that wakes up then finds it with 20 ms left. -/
theorem waits_behind_refill :
    (exec stepFixed (boot (k8sInit ⟨Finmap.singleton 0 ⟨1000, 2000000⟩, ∅⟩
        fun p : Fin 2 => ⟨BitVec.ofNat 32 p, none⟩))
      [.enable 0, .enable 1, .wake 0 true, .pick, .run 2000000, .expire, .wake 1 false]).map
        (fun (t, _) => (t.curr, t.dsq, t.sliceOf 0, (t.scx 0).slice)) =
      some (some 0, [1], 2000000, 20000000) := by
  decide

end K8sSched.Bpf.BudgetCap
