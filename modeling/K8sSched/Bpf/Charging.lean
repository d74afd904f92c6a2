import K8sSched.Bpf.Places
import Mathlib.Algebra.Order.Field.Rat
import Mathlib.Tactic.Linarith
import Mathlib.Algebra.BigOperators.Group.List.Basic

/-! # Charging against usage

`k8s_stopping` takes the consumed time to be the slice of the parameters minus
the slice left. That is the time since `k8s_running` as long as the task was put
on the CPU with exactly that slice, so the charges add up to the usage in every
run in which the task is not preempted with part of its slice used, is not
refilled, does not overrun, and keeps the slice of its parameters while it holds
one. -/

namespace K8sSched.Bpf.Charging
open K8sSched.Bpf.Params K8sSched.Bpf.Ops K8sSched.Bpf.OneCpu K8sSched.Bpf.Places
open K8sSched.Lib.WrapClock K8sSched.Lib.FifoQueue K8sSched.Lib.Runs

variable {V τ : Type} [VClock V] [DecidableEq τ]

/-! ## The ledger of a task -/

/-- The CPU time a task consumed, in ns. -/
def consumed (p : τ) (tr : List (Event V τ)) : Nat :=
  (tr.map fun | .ran q ns => if q = p then ns else 0 | _ => 0).sum

/-- The virtual time all `k8s_stopping` calls added to a task. -/
def charged (p : τ) (tr : List (Event V τ)) : Nat :=
  (tr.map fun | .stopped q c => if q = p then c.toNat else 0 | _ => 0).sum

/-- The number of `k8s_stopping` calls for a task. -/
def stops (p : τ) (tr : List (Event V τ)) : Nat :=
  (tr.map fun | .stopped q _ => if q = p then 1 else 0 | _ => 0).sum

/-- The time since `k8s_running`, which the next `k8s_stopping` is to charge. -/
def sinceRunning (m : Machine V τ) (p : τ) : Nat := if m.curr = some p then m.ran else 0

section

omit [VClock V]

@[simp] theorem consumed_append (p : τ) (tr es : List (Event V τ)) :
    consumed p (tr ++ es) = consumed p tr + consumed p es := by simp [consumed]

@[simp] theorem charged_append (p : τ) (tr es : List (Event V τ)) :
    charged p (tr ++ es) = charged p tr + charged p es := by simp [charged]

@[simp] theorem stops_append (p : τ) (tr es : List (Event V τ)) :
    stops p (tr ++ es) = stops p tr + stops p es := by simp [stops]

end

/-- What a step means to the ledger of a task: nothing, more time on the CPU, or
one charge that ends its time there. -/
inductive Books (m : Machine V τ) (p : τ) (t : Machine V τ) (es : List (Event V τ)) : Prop
  | idle (hu : consumed p es = 0) (hc : charged p es = 0) (hn : stops p es = 0)
      (hs : sinceRunning t p = sinceRunning m p)
  | ran (hc : charged p es = 0) (hn : stops p es = 0)
      (hs : sinceRunning t p = sinceRunning m p + consumed p es)
  | stopped (hcur : m.curr = some p) (hu : consumed p es = 0)
      (hc : charged p es = (chargeOf m.toSched p).toNat) (hn : stops p es = 1)
      (hs : sinceRunning t p = 0)

omit [VClock V] in
theorem books_of_stop {m t : Machine V τ} {es es' : List (Event V τ)} {p q : τ}
    (hcur : m.curr = some q) (ht : t.ran = 0 ∨ t.curr = none)
    (hes : es = es' ++ [.stopped q (chargeOf m.toSched q)])
    (hes' : es' = [] ∨ ∃ x, es' = [.moved x]) : Books m p t es := by
  have hsince : sinceRunning t p = 0 := by
    unfold sinceRunning
    rcases ht with h | h
    · simp [h]
    · simp [h]
  have hnil : consumed p es' = 0 ∧ charged p es' = 0 ∧ stops p es' = 0 := by
    rcases hes' with rfl | ⟨x, rfl⟩
    · simp [consumed, charged, stops]
    · simp [consumed, charged, stops]
  obtain ⟨hu, hc, hn⟩ := hnil
  by_cases hpq : q = p
  · subst hpq
    refine .stopped hcur ?_ ?_ ?_ hsince
    · rw [hes, consumed_append, hu]; simp [consumed]
    · rw [hes, charged_append, hc]; simp [charged]
    · rw [hes, stops_append, hn]; simp [stops]
  · refine .idle ?_ ?_ ?_ ?_
    · rw [hes, consumed_append, hu]; simp [consumed]
    · rw [hes, charged_append, hc]; simp [charged, hpq]
    · rw [hes, stops_append, hn]; simp [stops, hpq]
    · rw [hsince]; simp [sinceRunning, hcur, hpq]

theorem does_books {m t : Machine V τ} {a : Action τ} {es : List (Event V τ)}
    (hd : Does m a t es) (p : τ) : Books m p t es := by
  cases hd with
  | @run q ns hc =>
    by_cases hpq : q = p
    · subst hpq
      refine .ran (by simp [charged]) (by simp [stops]) ?_
      simp [sinceRunning, setSlice, hc, consumed]
    · refine .idle ?_ ?_ ?_ ?_
      · simp [consumed, hpq]
      · simp [charged]
      · simp [stops]
      · simp [sinceRunning, setSlice, hc, hpq]
  | sleep hc => exact books_of_stop hc (.inr rfl) rfl (.inl rfl)
  | preemptKeep hc hs => exact books_of_stop hc (.inr rfl) rfl (.inl rfl)
  | preemptQueue hc hs => exact books_of_stop hc (.inr rfl) rfl (.inl rfl)
  | expireLocal hc hs hl => exact books_of_stop hc (.inl rfl) rfl (.inl rfl)
  | expireMoved hc hs hl hq => exact books_of_stop hc (.inl rfl) rfl (.inr ⟨_, rfl⟩)
  | pickLocal hc hl => exact .idle rfl rfl rfl (by simp [sinceRunning, hc])
  | pickMoved hc hl hq =>
    exact .idle (by simp [consumed]) (by simp [charged]) (by simp [stops])
      (by simp [sinceRunning, hc])
  | refill hc hs hl hdq =>
    exact .idle (by simp [consumed]) (by simp [charged]) (by simp [stops]) rfl
  | enable hp => exact .idle (by simp [consumed]) (by simp [charged]) (by simp [stops]) rfl
  | _ => exact .idle rfl rfl rfl rfl

/-! ## Steps that keep the slice in line with the charge -/

/-- The weight of a task stays as it is. -/
def ConstWeight (p : τ) (w : U64) (m : Machine V τ) : Action τ → Prop
  | .setMaps maps => (lookupTaskParams maps (m.task p)).2.weight = w
  | _ => True

/-- The task is preempted only with its slice untouched or used up; its slice
ends only while another task waits; it does not overrun it; and a rewrite of the
maps leaves the slice of its parameters alone while it holds one. -/
def InLine (p : τ) (m : Machine V τ) : Action τ → Prop
  | .preempt => m.curr = some p → m.ran = 0 ∨ (m.scx p).slice = 0
  | .expire => m.curr = some p → m.localDsq ++ m.dsq ≠ []
  | .run ns => m.curr = some p → ns ≤ (m.scx p).slice.toNat
  | .setMaps maps => p ∈ held m → taskSlice (lookupTaskParams maps (m.task p)).2 = m.sliceOf p
  | _ => True

instance (p : τ) (w : U64) (m : Machine V τ) : ∀ a, Decidable (ConstWeight p w m a)
  | .setMaps _ => inferInstanceAs (Decidable (_ = _))
  | .enable _ | .wake _ _ | .pick | .run _ | .sleep | .preempt | .expire => .isTrue trivial

instance (p : τ) (m : Machine V τ) : ∀ a, Decidable (InLine p m a)
  | .preempt => inferInstanceAs (Decidable (_ → _))
  | .expire => inferInstanceAs (Decidable (_ → _))
  | .run _ => inferInstanceAs (Decidable (_ → _))
  | .setMaps _ => inferInstanceAs (Decidable (_ → _))
  | .enable _ | .wake _ _ | .pick | .sleep => .isTrue trivial

/-- The task waits with the slice of its parameters, and on the CPU the slice
left and the time since `k8s_running` make up that slice. -/
structure Whole (p : τ) (m : Machine V τ) : Prop where
  waiting : p ∈ m.localDsq ++ m.dsq → (m.scx p).slice = m.sliceOf p
  running : m.curr = some p → (m.scx p).slice.toNat + m.ran = (m.sliceOf p).toNat

omit [VClock V] in
/-- An insert gives the task the slice of its parameters. -/
theorem whole_insert {m t : Machine V τ} {p : τ} {v : V} (hm : t.maps = m.maps)
    (ht : t.task = m.task) (hs : t.scx = Function.update m.scx p ⟨v, m.sliceOf p⟩)
    (hc : t.curr ≠ some p) : Whole p t := by
  refine ⟨fun _ => ?_, fun h => absurd h hc⟩
  rw [sliceOf_congr hm ht, hs]
  simp

omit [VClock V] [DecidableEq τ] in
/-- A step that leaves the task's slice alone keeps it whole if it stays where it
is or gets the CPU. -/
theorem Whole.of_same {m t : Machine V τ} {p : τ} (h : Whole p m) (hm : t.maps = m.maps)
    (ht : t.task = m.task) (hs : (t.scx p).slice = (m.scx p).slice)
    (hw : p ∈ t.localDsq ++ t.dsq → p ∈ m.localDsq ++ m.dsq)
    (hc : t.curr = some p → (m.curr = some p ∧ t.ran = m.ran) ∨
      (p ∈ m.localDsq ++ m.dsq ∧ t.ran = 0)) : Whole p t := by
  refine ⟨fun hp => ?_, fun hp => ?_⟩
  · rw [hs, sliceOf_congr hm ht]
    exact h.waiting (hw hp)
  · rw [hs, sliceOf_congr hm ht]
    rcases hc hp with ⟨hcur, hran⟩ | ⟨hq, hran⟩
    · rw [hran]
      exact h.running hcur
    · rw [hran, h.waiting hq, Nat.add_zero]

omit [DecidableEq τ] in
/-- A task from the queues gets the CPU. -/
theorem Whole.switchTo {m n : Machine V τ} {p x : τ} {rest : List τ} (h : Whole p m)
    (hm : n.maps = m.maps) (ht : n.task = m.task) (hs : (n.scx p).slice = (m.scx p).slice)
    (hx : x ∈ m.localDsq ++ m.dsq) (hsub : p ∈ rest ++ n.dsq → p ∈ m.localDsq ++ m.dsq) :
    Whole p (OneCpu.switchTo n x rest) := by
  refine h.of_same ?_ ?_ ?_ ?_ fun hcur => .inr ⟨?_, rfl⟩
  · rw [switchTo_maps, hm]
  · rw [switchTo_task, ht]
  · rw [switchTo_scx, hs]
  · rw [switchTo_localDsq, switchTo_dsq]
    exact hsub
  · obtain rfl : x = p := Option.some.inj hcur
    exact hx

/-- The task on the CPU goes to the end of the shared queue, and a task from the
queues gets the CPU. -/
theorem Whole.expire {m : Machine V τ} {s : Sched V τ} {p q x : τ} {rest : List τ}
    (h : Whole p m) (hw : Wf m) (hc : m.curr = some q) (hm : s.maps = m.maps)
    (ht : s.task = m.task) (hs : s.scx = m.scx) (hx : x ∈ m.localDsq ++ m.dsq)
    (hsub : p ∈ rest ++ s.dsq → p ∈ m.localDsq ++ m.dsq) :
    Whole p (OneCpu.switchTo { m with toSched := requeue s q } x rest) := by
  by_cases hpq : p = q
  · subst hpq
    have hscx : (requeue s p).scx = Function.update m.scx p
        ⟨clampVtime s.vtimeNow (VClock.add (s.scx p).dsqVtime (chargeOf s p)), m.sliceOf p⟩ := by
      rw [requeue_scx, hs, sliceOf_congr hm ht]
    refine whole_insert ?_ ?_ ((switchTo_scx ..).trans hscx) fun he => ?_
    · rw [switchTo_maps, ← hm]
      rfl
    · rw [switchTo_task, ← ht]
      rfl
    · obtain rfl : x = p := Option.some.inj he
      exact hw.waiting_ne hc hx rfl
  · refine h.switchTo hm ht ?_ hx fun hp => hsub ?_
    · simp [hpq, hs]
    · simpa [hpq] using hp

theorem Whole.step {m t : Machine V τ} {a : Action τ} {es : List (Event V τ)} {p : τ}
    (h : Whole p m) (hw : Wf m) (hd : Does m a t es) (hin : InLine p m a) : Whole p t := by
  cases hd with
  | enable hp => exact h.of_same rfl rfl (update_slice ..) id fun hc => .inl ⟨hc, rfl⟩
  | @wakeLocal q hq hdq hl hc =>
    by_cases hpq : p = q
    · subst hpq
      exact whole_insert (m := m) rfl rfl rfl (by simp [hc])
    · refine h.of_same rfl rfl (by simp [hpq]) ?_ (by simp [hc])
      simp [hpq]
  | @wakeQueue q hq hdq hl hc =>
    by_cases hpq : p = q
    · subst hpq
      exact whole_insert (m := m) rfl rfl rfl hc
    · refine h.of_same rfl rfl (by simp [hpq]) ?_ fun hc => .inl ⟨hc, rfl⟩
      simp [hpq]
  | @pickLocal q rest hc hl =>
    refine h.switchTo rfl rfl rfl (by simp [hl]) fun hp => ?_
    rw [hl]
    exact List.mem_cons_of_mem q hp
  | @pickMoved q hc hl hq =>
    refine h.switchTo rfl rfl rfl (List.mem_append_right _ (lowest_mem hq)) fun hp => ?_
    rw [hl]
    exact List.mem_of_mem_erase hp
  | @run q ns hc =>
    by_cases hpq : q = p
    · subst hpq
      obtain ⟨hnl, hnd⟩ := hw.curr_notMem hc
      have hle := hin hc
      have hsum := h.running hc
      refine ⟨fun hmem => ?_, fun _ => ?_⟩
      · exact absurd hmem (by simp [setSlice, hnl, hnd])
      · have hlt := (m.scx q).slice.isLt
        show (Function.update m.scx q _ q).slice.toNat + (m.ran + ns) = (m.sliceOf q).toNat
        simp only [Function.update_self, BitVec.toNat_ofNat]
        omega
    · have hpq' : p ≠ q := Ne.symm hpq
      refine h.of_same rfl rfl (by simp [hpq']) id fun hcur => ?_
      exact absurd (Option.some.inj (hc.symm.trans hcur)) hpq
  | @sleep q hc => exact h.of_same rfl rfl (update_slice ..) id (by simp)
  | @preemptKeep q hc hs =>
    by_cases hpq : q = p
    · subst hpq
      have hran : m.ran = 0 := (hin hc).resolve_right hs
      refine ⟨fun _ => ?_, by simp⟩
      have hsum := h.running hc
      rw [hran, Nat.add_zero] at hsum
      have hsl : (m.scx q).slice = m.sliceOf q := BitVec.eq_of_toNat_eq hsum
      exact (update_slice m.scx q q _).trans hsl
    · refine h.of_same rfl rfl (update_slice ..) ?_ (by simp)
      have hpq' : p ≠ q := Ne.symm hpq
      simp [hpq']
  | @preemptQueue q hc hs =>
    by_cases hpq : p = q
    · subst hpq
      exact whole_insert (m := m) rfl rfl (requeue_scx _ _) (by simp)
    · refine h.of_same rfl rfl (by simp [hpq]) ?_ (by simp)
      simp [hpq]
  | @refill q hc hs hl hdq =>
    have hpq : q ≠ p := by
      rintro rfl
      exact hin hc (by rw [hl, hdq]; rfl)
    refine h.of_same rfl rfl (by simp [hpq.symm]) id fun hcur => ?_
    exact absurd (Option.some.inj (hc.symm.trans hcur)) hpq
  | @expireLocal q x rest hc hs hl =>
    refine h.expire (s := m.toSched) hw hc rfl rfl rfl (by simp [hl]) fun hp => ?_
    rw [hl]
    exact List.mem_cons_of_mem x hp
  | @expireMoved q x hc hs hl hq =>
    refine h.expire (s := { m.toSched with dsq := m.dsq.erase x }) hw hc rfl rfl rfl
      (List.mem_append_right _ (lowest_mem hq)) fun hp => ?_
    rw [hl]
    exact List.mem_of_mem_erase hp
  | @setMaps maps =>
    refine ⟨fun hp => ?_, fun hp => ?_⟩
    · exact (h.waiting hp).trans (hin (List.mem_append_right _ hp)).symm
    · have hcur : m.curr = some p := hp
      have hsl := hin (by rw [held_of_some hcur]; exact List.mem_cons_self ..)
      exact (h.running hp).trans (congrArg BitVec.toNat hsl.symm)

/-! ## The balance of the ledger -/

/-- The ledger up to the last stop: what was charged for `billed` ns on the CPU
is their virtual time, short of it by at most one per stop. -/
structure Settled (p : τ) (w : U64) (tr : List (Event V τ)) (m : Machine V τ) : Prop where
  wf : Wf m
  whole : Whole p m
  weight : (m.params p).weight = w
  balance : ∃ billed, consumed p tr = billed + sinceRunning m p ∧
    charged p tr * w.toNat ≤ billed * 10000 ∧
    billed * 10000 ≤ (charged p tr + stops p tr) * w.toNat

theorem does_weight {m t : Machine V τ} {a : Action τ} {es : List (Event V τ)} {p : τ} {w : U64}
    (hd : Does m a t es) (hc : ConstWeight p w m a) (h : (m.params p).weight = w) :
    (t.params p).weight = w := by
  cases a with
  | setMaps maps => cases hd; exact hc
  | _ =>
    obtain ⟨hm, ht⟩ := does_maps hd (by simp)
    rw [params_congr hm ht]
    exact h

omit [VClock V] in
/-- A task put on the CPU with its whole slice is charged for the time since. -/
theorem Whole.chargeOf_toNat {m : Machine V τ} {p : τ} (h : Whole p m) (hc : m.curr = some p)
    (hw : (m.params p).weight ≠ 0) :
    (chargeOf m.toSched p).toNat =
      sinceRunning m p * 10000 / (m.params p).weight.toNat := by
  have hsum : (m.scx p).slice.toNat + m.ran = (taskSlice (m.params p)).toNat := h.running hc
  unfold chargeOf
  rw [stoppingCharge_of_le (by omega) hw, sinceRunning, if_pos hc,
    show (taskSlice (m.params p)).toNat - (m.scx p).slice.toNat = m.ran by omega]

theorem Settled.step {m t : Machine V τ} {a : Action τ} {tr es : List (Event V τ)} {p : τ}
    {w : U64} (h : Settled p w tr m) (hw : w ≠ 0) (hd : Does m a t es)
    (hc : ConstWeight p w m a) (hin : InLine p m a) : Settled p w (tr ++ es) t := by
  refine ⟨h.wf.step hd, h.whole.step h.wf hd hin, does_weight hd hc h.weight, ?_⟩
  obtain ⟨billed, hcons, hlo, hhi⟩ := h.balance
  rw [consumed_append, charged_append, stops_append]
  cases does_books hd p with
  | idle hu hch hn hs => exact ⟨billed, by omega, by rw [hch]; exact hlo, by rw [hch, hn]; exact hhi⟩
  | ran hch hn hs => exact ⟨billed, by omega, by rw [hch]; exact hlo, by rw [hch, hn]; exact hhi⟩
  | stopped hcur hu hch hn hs =>
    have hcharge := h.whole.chargeOf_toNat hcur (by rw [h.weight]; exact hw)
    rw [h.weight] at hcharge
    have hpos : 0 < w.toNat := toNat_pos hw
    -- the division loses less than one unit of the weight
    have hle := Nat.div_mul_le_self (sinceRunning m p * 10000) w.toNat
    have hlt := Nat.lt_mul_div_succ (sinceRunning m p * 10000) hpos
    refine ⟨billed + sinceRunning m p, by omega, ?_, ?_⟩
    · rw [hch, hcharge]
      linarith
    · rw [hch, hcharge, hn]
      linarith

omit [VClock V] in
/-- What a settled ledger says about the CPU time of a task, in virtual time. -/
theorem Settled.usage {p : τ} {w : U64} {tr : List (Event V τ)} {m : Machine V τ}
    (h : Settled p w tr m) (hw : w ≠ 0) :
    (charged p tr : ℚ) ≤ 10000 * consumed p tr / w.toNat ∧
      (10000 * consumed p tr / w.toNat : ℚ) ≤
        charged p tr + stops p tr + 10000 * 5000000 / w.toNat := by
  obtain ⟨billed, hcons, hlo, hhi⟩ := h.balance
  have hpos : (0 : ℚ) < w.toNat := by exact_mod_cast toNat_pos hw
  have hsince : sinceRunning m p ≤ 5000000 := by
    unfold sinceRunning
    split
    · next hc =>
      have hsum := h.whole.running hc
      have hle : (m.sliceOf p).toNat ≤ 5000000 := taskSlice_le _
      omega
    · omega
  have hsince : (sinceRunning m p : ℚ) ≤ 5000000 := by exact_mod_cast hsince
  have hlo : (charged p tr : ℚ) * w.toNat ≤ billed * 10000 := by exact_mod_cast hlo
  have hhi : (billed : ℚ) * 10000 ≤ (charged p tr + stops p tr) * w.toNat := by exact_mod_cast hhi
  have hnonneg : (0 : ℚ) ≤ sinceRunning m p := Nat.cast_nonneg _
  have hcons : (consumed p tr : ℚ) = billed + sinceRunning m p := by exact_mod_cast hcons
  rw [hcons]
  constructor
  · rw [le_div_iff₀ hpos]
    linarith
  · rw [div_le_iff₀ hpos, add_mul, div_mul_cancel₀ _ hpos.ne']
    linarith

/-- In every state of a run in line with the slices, the virtual time charged
for a task of weight `w` is the CPU time up to its last `k8s_stopping`, times
`10000 / w`, up to 1 per `k8s_stopping`. -/
theorem charged_eq_usage {s : Sched U64 τ} {p : τ} {w : U64} {tr : List (Event U64 τ)}
    {t : Machine U64 τ} (hw : w ≠ 0) (hp : (s.params p).weight = w)
    (h : Run step (fun m a => ConstWeight p w m a ∧ InLine p m a) (boot s) tr t) :
    |(charged p tr : ℚ) - (consumed p tr - sinceRunning t p) * 10000 / w.toNat| ≤ stops p tr := by
  have h0 : Settled p w [] (boot s) := by
    refine ⟨boot_wf s, ⟨by simp [boot], by simp [boot]⟩, hp, 0, ?_⟩
    simp [consumed, charged, stops, sinceRunning, boot]
  have hs : Settled p w tr t := by
    refine h.invariant (I := Settled p w) h0 ?_
    intro tr m a u es hS hok hstep
    exact hS.step hw (step_does hstep) hok.1 hok.2
  obtain ⟨billed, hcons, hlo, hhi⟩ := hs.balance
  have hposq : (0 : ℚ) < w.toNat := by exact_mod_cast toNat_pos hw
  have hlo : (charged p tr : ℚ) * w.toNat ≤ billed * 10000 := by exact_mod_cast hlo
  have hhi : (billed : ℚ) * 10000 ≤ (charged p tr + stops p tr) * w.toNat := by exact_mod_cast hhi
  rw [hcons, Nat.cast_add, add_sub_cancel_right, abs_le]
  constructor
  · rw [neg_le_sub_iff_le_add, div_le_iff₀ hposq]
    linarith
  · rw [sub_le_iff_le_add, ← sub_le_iff_le_add', le_div_iff₀ hposq]
    nlinarith

/-- A task of weight 3000 on the CPU for 1000 ns, untouched, and for its whole slice. -/
theorem charged_eq_usage_thrice :
    ∃ (s : Sched U64 (Fin 2)) (t : Machine U64 (Fin 2)) (tr : List (Event U64 (Fin 2))),
      Run step (fun m a => ConstWeight 0 3000 m a ∧ InLine 0 m a) (boot s) tr t ∧
      charged 0 tr = 16669999 ∧
      |(charged 0 tr : ℚ) - (consumed 0 tr - sinceRunning t 0) * 10000 / (3000 : U64).toNat|
        ≤ stops 0 tr := by
  have h : Run step (fun m a => ConstWeight 0 3000 m a ∧ InLine 0 m a)
      (boot (k8sInit ⟨Finmap.singleton 0 ⟨3000, 0⟩, ∅⟩
        fun p : Fin 2 => ⟨BitVec.ofNat 32 p, none⟩)) _ _ :=
    Run.of_isSome [.enable 0, .enable 1, .wake 0 true, .pick, .run 1000, .sleep, .wake 0 true,
      .pick, .preempt, .wake 1 false, .pick, .run 5000000, .expire] (by decide) (by decide)
  exact ⟨_, _, _, h, by decide, charged_eq_usage (by decide) (by decide) h⟩

/-- A task preempted after 1 ms of its slice and put back for another 1 ms is
charged for the first one twice. -/
theorem charged_twice_after_preempt :
    (exec step (boot (k8sInit ⟨Finmap.singleton 0 ⟨10000, 0⟩, ∅⟩ fun _ : Fin 1 => ⟨0, none⟩))
      [.enable 0, .wake 0 true, .pick, .run 1000000, .preempt, .pick, .run 1000000, .sleep]).map
        (fun (t, tr) => (t.curr, consumed 0 tr, charged 0 tr, stops 0 tr)) =
      some (none, 2000000, 3000000, 2) := by
  decide

end K8sSched.Bpf.Charging
