import K8sSched.Bpf.Charging
import K8sSched.Bpf.Ideal
import Mathlib.Data.Finset.Basic
import Mathlib.Data.Fintype.Basic

/-! # CPU shares in the ratio of the weights

All tasks are always runnable and run until their slice is used up. Since the
task whose slice ends is not queued when `k8s_dispatch` chooses, the next task
is the one with the least virtual time among the others, which need not be the
one with the least virtual time of all: two tasks alternate whatever their
weights. As long as every choice is one the old task would not have won, the
task on the CPU is always the one furthest behind, so that all tasks stay within
one charge of it and the CPU times within the bound. -/

namespace K8sSched.Bpf.FairShare
open K8sSched.Bpf.Params K8sSched.Bpf.Ops K8sSched.Bpf.OneCpu K8sSched.Bpf.Places
open K8sSched.Bpf.Charging K8sSched.Bpf.Ideal
open K8sSched.Lib.WrapClock K8sSched.Lib.FifoQueue K8sSched.Lib.Runs

variable {V τ : Type} [VClock V] [DecidableEq τ]

/-! ## The runs -/

/-- All tasks of `l` enabled at one clock and then inserted by `k8s_enqueue`. -/
def startAll (s : Sched V τ) (l : List τ) : Machine V τ :=
  { l.foldl k8sEnqueue (l.foldl k8sEnable { s with dsq := [], localDsq := [] }) with
    enabled := l.toFinset, curr := none, ran := 0 }

/-- All tasks are runnable all the time and use up their slices. -/
def Turns (m : Machine V τ) : Action τ → Prop
  | .pick => True
  | .run ns => ∀ p, m.curr = some p → ns ≤ (m.scx p).slice.toNat
  | .expire => True
  | _ => False

/-- When its slice ends, the running task, once charged, is not before the
queued task with the lowest virtual time. -/
def InTurn (m : Machine V τ) : Action τ → Prop
  | .expire => ∀ p q, m.curr = some p → m.lowestVtime = some q →
      VClock.before (VClock.add (m.scx p).dsqVtime (chargeOf m.toSched p)) (m.scx q).dsqVtime = false
  | _ => True

instance [Fintype τ] (m : Machine V τ) : ∀ a, Decidable (Turns m a)
  | .run _ => inferInstanceAs (Decidable (∀ _, _))
  | .pick | .expire => .isTrue trivial
  | .enable _ | .wake _ _ | .sleep | .preempt | .setMaps _ => .isFalse id

instance [Fintype τ] (m : Machine V τ) : ∀ a, Decidable (InTurn m a)
  | .expire => inferInstanceAs (Decidable (∀ _, _))
  | .run _ | .pick | .enable _ | .wake _ _ | .sleep | .preempt | .setMaps _ => .isTrue trivial

/-- The number of `k8s_stopping` calls for any task. -/
def allStops (tr : List (Event V τ)) : Nat := tr.countP fun | .stopped _ _ => true | _ => false

omit [VClock V] in
theorem stops_le_allStops (p : τ) (tr : List (Event V τ)) : stops p tr ≤ allStops tr := by
  induction tr with
  | nil => simp [stops, allStops]
  | cons e tr ih =>
    have hs : stops p (e :: tr) = stops p [e] + stops p tr := stops_append p [e] tr
    have ha : allStops (e :: tr) = allStops [e] + allStops tr := by
      show allStops ([e] ++ tr) = _
      exact List.countP_append
    have he : stops p [e] ≤ allStops [e] := by
      cases e with
      | stopped q c =>
        by_cases hq : q = p
        · simp [stops, allStops, hq]
        · simp [stops, hq]
      | _ => simp [stops]
    omega

/-! ## The start -/

theorem clamp_self (now : U64) : clampVtime now now = now := by
  have h : now - (now - defaultSliceNs) = defaultSliceNs := by bv_omega
  have hb : VClock.before now (VClock.sub now defaultSliceNs) = false := by
    show decide ((now - (now - defaultSliceNs)).toInt < 0) = false
    rw [h]
    decide
  rw [clampVtime, hb]
  rfl

theorem enableAll (l : List τ) (s : Sched U64 τ) :
    (l.foldl k8sEnable s).vtimeNow = s.vtimeNow ∧ (l.foldl k8sEnable s).maps = s.maps ∧
      (l.foldl k8sEnable s).task = s.task ∧ (l.foldl k8sEnable s).dsq = s.dsq ∧
      (l.foldl k8sEnable s).localDsq = s.localDsq ∧
      ∀ p, p ∈ l ∨ (s.scx p).dsqVtime = s.vtimeNow →
        ((l.foldl k8sEnable s).scx p).dsqVtime = s.vtimeNow := by
  induction l generalizing s with
  | nil => simp
  | cons x l ih =>
    obtain ⟨hn, hm, ht, hd, hl, hs⟩ := ih (k8sEnable s x)
    refine ⟨hn, hm, ht, hd, hl, fun p hp => hs p ?_⟩
    by_cases hpx : p = x
    · exact .inr (by simp [hpx])
    · refine hp.imp (fun hp => ?_) (fun hv => ?_)
      · simpa [hpx] using hp
      · simpa [hpx] using hv

theorem enqueueAll (l : List τ) (s : Sched U64 τ) (h : ∀ p ∈ l, (s.scx p).dsqVtime = s.vtimeNow) :
    (l.foldl k8sEnqueue s).vtimeNow = s.vtimeNow ∧ (l.foldl k8sEnqueue s).maps = s.maps ∧
      (l.foldl k8sEnqueue s).task = s.task ∧ (l.foldl k8sEnqueue s).dsq = s.dsq ++ l ∧
      (l.foldl k8sEnqueue s).localDsq = s.localDsq ∧
      ∀ p, p ∈ l ∨ s.scx p = ⟨s.vtimeNow, s.sliceOf p⟩ →
        (l.foldl k8sEnqueue s).scx p = ⟨s.vtimeNow, s.sliceOf p⟩ := by
  induction l generalizing s with
  | nil => simp
  | cons x l ih =>
    have hx : (k8sEnqueue s x).scx = Function.update s.scx x ⟨s.vtimeNow, s.sliceOf x⟩ := by
      rw [k8sEnqueue_scx, h x (List.mem_cons_self ..), clamp_self]
    obtain ⟨hn, hm, ht, hd, hl, hs⟩ := ih (k8sEnqueue s x) (by
      intro p hp
      by_cases hpx : p = x
      · rw [hx, hpx]; simp
      · rw [hx]; simpa [hpx] using h p (List.mem_cons_of_mem _ hp))
    refine ⟨hn, hm, ht, by rw [List.foldl_cons, hd]; simp, hl, fun p hp => hs p ?_⟩
    by_cases hpx : p = x
    · exact .inr (by rw [hx, hpx, Function.update_self]; rfl)
    · refine hp.imp (fun hp => ?_) (fun hv => ?_)
      · simpa [hpx] using hp
      · rw [hx, Function.update_of_ne hpx]
        exact hv

theorem startAll_spec (s : Sched U64 τ) (l : List τ) :
    (startAll s l).vtimeNow = s.vtimeNow ∧ (startAll s l).maps = s.maps ∧
      (startAll s l).task = s.task ∧ (startAll s l).dsq = l ∧ (startAll s l).localDsq = [] ∧
      ∀ p ∈ l, (startAll s l).scx p = ⟨s.vtimeNow, s.sliceOf p⟩ := by
  obtain ⟨hn, hm, ht, hd, hl, hv⟩ := enableAll l { s with dsq := [], localDsq := [] }
  obtain ⟨hn', hm', ht', hd', hl', hs'⟩ := enqueueAll l _ fun p hp => (hv p (.inl hp)).trans hn.symm
  refine ⟨hn'.trans hn, hm'.trans hm, ht'.trans ht, ?_, hl'.trans hl, fun p hp => ?_⟩
  · exact hd'.trans (by rw [hd]; rfl)
  · refine (hs' p (.inl hp)).trans ?_
    rw [hn, sliceOf_congr hm ht]
    rfl

/-! ## The ideal runs -/

/-- The clock stands at the task furthest behind, which is the one on the CPU;
no task is further ahead than one charge; and virtual time is what was charged. -/
structure Fair (v₀ : Int) (l : List τ) (w : τ → U64) (tr : List (Event Int τ))
    (m : Machine Int τ) : Prop where
  settled : ∀ p ∈ l, Settled p (w p) tr m
  wf : Wf m
  local_nil : m.localDsq = []
  mem : ∀ p, p ∈ held m ↔ p ∈ l
  enabled : ∀ p, p ∈ m.enabled ↔ p ∈ l
  exact : ∀ p ∈ l, (m.scx p).dsqVtime = v₀ + charged p tr
  behind : ∀ p ∈ l, m.vtimeNow ≤ (m.scx p).dsqVtime
  within : ∀ p ∈ l, ((m.scx p).dsqVtime - m.vtimeNow) * (w p).toNat ≤ 50000000000
  current : ∀ p, m.curr = some p → (m.scx p).dsqVtime = m.vtimeNow

section Fair

variable {v₀ : Int} {l : List τ} {w : τ → U64} {m t : Machine Int τ} {a : Action τ}
  {tr es : List (Event Int τ)}

omit [VClock V] [DecidableEq τ] in
/-- One charge, in the unit of `Fair.within`. -/
theorem charge_mul_le (s : Sched V τ) (p : τ) (hw : (s.params p).weight ≠ 0) :
    (chargeOf s p).toNat * (s.params p).weight.toNat ≤ 50000000000 := by
  unfold chargeOf
  rw [stoppingCharge_toNat, if_pos hw]
  have hu := used_le (taskSlice (s.params p)) (s.scx p).slice
  have hs := taskSlice_le (s.params p)
  exact (Nat.div_mul_le_self _ _).trans (by omega)

theorem Fair.near (h : Fair v₀ l w tr m) (hw : ∀ p ∈ l, w p ≠ 0) :
    Near m.vtimeNow m.enabled m.toSched := by
  refine ⟨by unfold window; omega, fun p hp => ?_⟩
  have hp := (h.enabled p).mp hp
  have hb := h.behind p hp
  have hin := h.within p hp
  have hpos : (1 : Int) ≤ (w p).toNat := by exact_mod_cast toNat_pos (hw p hp)
  have hle : (m.scx p).dsqVtime - m.vtimeNow ≤ 50000000000 := by nlinarith
  unfold window
  omega

/-- With two tasks or more, another task waits while one is on the CPU. -/
theorem Fair.dsq_ne_nil (h : Fair v₀ l w tr m) (hnd : l.Nodup) (hlen : 2 ≤ l.length) {p : τ}
    (hc : m.curr = some p) : m.dsq ≠ [] := by
  intro hd
  have hperm : (held m).Perm l := (List.perm_ext_iff_of_nodup h.wf.nodup hnd).mpr h.mem
  have := hperm.length_eq
  rw [held_of_some hc, h.local_nil, hd] at this
  simp at this
  omega

theorem Fair.inLine (h : Fair v₀ l w tr m) (hnd : l.Nodup) (hlen : 2 ≤ l.length)
    (ht : Turns m a) (p : τ) : InLine p m a ∧ ConstWeight p (w p) m a := by
  cases a with
  | run ns => exact ⟨ht p, trivial⟩
  | expire =>
    refine ⟨fun hc => ?_, trivial⟩
    rw [h.local_nil]
    exact h.dsq_ne_nil hnd hlen hc
  | pick => exact ⟨trivial, trivial⟩
  | _ => exact ht.elim

theorem Fair.step_mem (h : Fair v₀ l w tr m) (hd : Does m a t es) (ht : Turns m a) (p : τ) :
    p ∈ held t ↔ p ∈ l := by
  rw [← h.mem p]
  rcases does_held hd with ⟨q, b, rfl, -⟩ | ⟨q, rfl, -⟩ | hperm
  · exact ht.elim
  · exact ht.elim
  · exact hperm.mem_iff

/-- A later clock only brings the tasks closer. -/
theorem within_mono {v n n' b : Int} {w : U64} (h : (v - n) * w.toNat ≤ b) (hn : n ≤ n') :
    (v - n') * w.toNat ≤ b := by
  have hw : (0 : Int) ≤ w.toNat := Int.natCast_nonneg _
  nlinarith

omit [DecidableEq τ] in
theorem switchTo_now {m : Machine Int τ} {p : τ} (rest : List τ)
    (h : m.vtimeNow ≤ (m.scx p).dsqVtime) :
    (switchTo m p rest).vtimeNow = (m.scx p).dsqVtime := by
  rw [switchTo_max, max_eq_right h]

/-- The clamp leaves a task alone that is not behind the clock. -/
theorem requeue_unclamped {s : Sched Int τ} {p : τ} (h : s.vtimeNow ≤ (s.scx p).dsqVtime) :
    (requeue s p).scx = Function.update s.scx p
      ⟨(s.scx p).dsqVtime + (chargeOf s p).toNat, s.sliceOf p⟩ := by
  rw [requeue_scx, clamp_int, add_int, max_eq_left (by omega)]

/-- The part of `Fair` that is about virtual time. -/
structure OnClock (v₀ : Int) (l : List τ) (w : τ → U64) (tr : List (Event Int τ))
    (m : Machine Int τ) : Prop where
  exact : ∀ p ∈ l, (m.scx p).dsqVtime = v₀ + charged p tr
  behind : ∀ p ∈ l, m.vtimeNow ≤ (m.scx p).dsqVtime
  within : ∀ p ∈ l, ((m.scx p).dsqVtime - m.vtimeNow) * (w p).toNat ≤ 50000000000
  current : ∀ p, m.curr = some p → (m.scx p).dsqVtime = m.vtimeNow

theorem Fair.onClock (h : Fair v₀ l w tr m) : OnClock v₀ l w tr m :=
  ⟨h.exact, h.behind, h.within, h.current⟩

/-- Running leaves virtual time alone. -/
theorem OnClock.run (h : OnClock v₀ l w tr m) (p : τ) (slice : U64) (ns : Nat) :
    OnClock v₀ l w (tr ++ [.ran p ns]) { setSlice m p slice with ran := m.ran + ns } := by
  have hv : ∀ x, ((setSlice m p slice).scx x).dsqVtime = (m.scx x).dsqVtime := by
    intro x
    by_cases hx : x = p
    · subst hx; simp
    · simp [hx]
  refine ⟨fun x hx => ?_, fun x hx => ?_, fun x hx => ?_, fun x hx => ?_⟩
  · rw [charged_append, show charged x [Event.ran (V := Int) p ns] = 0 from rfl]
    exact (hv x).trans (h.exact x hx)
  · rw [hv]
    exact h.behind x hx
  · rw [hv]
    exact h.within x hx
  · rw [hv]
    exact h.current x hx

/-- The task furthest behind gets the CPU, and the clock moves to it. -/
theorem OnClock.pick (h : OnClock v₀ l w tr m) (hmem : ∀ x ∈ l, x ∈ m.dsq) {p : τ} (hp : p ∈ l)
    (hq : m.lowestVtime = some p) :
    OnClock v₀ l w (tr ++ [.moved p]) (switchTo { m with dsq := m.dsq.erase p } p []) := by
  have hnow := switchTo_now (m := { m with dsq := m.dsq.erase p }) [] (h.behind p hp)
  refine ⟨fun x hx => ?_, fun x hx => ?_, fun x hx => ?_, fun x hx => ?_⟩
  · rw [charged_append, show charged x [Event.moved (V := Int) p] = 0 from rfl, switchTo_scx]
    exact h.exact x hx
  · rw [hnow, switchTo_scx]
    exact lowestVtime_le hq x (hmem x hx)
  · rw [hnow, switchTo_scx]
    exact within_mono (h.within x hx) (h.behind p hp)
  · obtain rfl : p = x := Option.some.inj hx
    rw [hnow, switchTo_scx]

/-- The task on the CPU is charged and is then not before the one that gets it. -/
theorem OnClock.expire (h : OnClock v₀ l w tr m) {p q : τ} (hc : m.curr = some p)
    (hq : m.lowestVtime = some q) (hmem : ∀ x ∈ l, x ≠ p → x ∈ m.dsq) (hp : p ∈ l)
    (hql : q ∈ l) (hqp : q ≠ p) (hweight : (m.params p).weight = w p) (hw : w p ≠ 0)
    (hturn : (m.scx q).dsqVtime ≤ (m.scx p).dsqVtime + (chargeOf m.toSched p).toNat) :
    OnClock v₀ l w (tr ++ [.moved q, .stopped p (chargeOf m.toSched p)])
      (switchTo { m with toSched := requeue { m.toSched with dsq := m.dsq.erase q } p } q []) := by
  have hscx : (requeue { m.toSched with dsq := m.dsq.erase q } p).scx = Function.update m.scx p
      ⟨(m.scx p).dsqVtime + (chargeOf m.toSched p).toNat, m.sliceOf p⟩ :=
    requeue_unclamped (h.behind p hp)
  have hother : ∀ x, x ≠ p →
      (requeue { m.toSched with dsq := m.dsq.erase q } p).scx x = m.scx x := by
    intro x hx
    rw [hscx, Function.update_of_ne hx]
  have hself : ((requeue { m.toSched with dsq := m.dsq.erase q } p).scx p).dsqVtime =
      (m.scx p).dsqVtime + (chargeOf m.toSched p).toNat := by
    rw [hscx, Function.update_self]
  have hnow := switchTo_now
    (m := { m with toSched := requeue { m.toSched with dsq := m.dsq.erase q } p }) (p := q) []
    (by rw [hother q hqp]; exact h.behind q hql)
  rw [hother q hqp] at hnow
  refine ⟨fun x hx => ?_, fun x hx => ?_, fun x hx => ?_, fun x hx => ?_⟩
  · rw [charged_append, switchTo_scx]
    by_cases hxp : x = p
    · subst hxp
      rw [hself, h.exact x hx]
      simp [charged, add_assoc]
    · rw [hother x hxp, h.exact x hx]
      simp [charged, Ne.symm hxp]
  · rw [hnow, switchTo_scx]
    by_cases hxp : x = p
    · subst hxp
      rw [hself]
      exact hturn
    · rw [hother x hxp]
      exact lowestVtime_le hq x (hmem x hx hxp)
  · rw [hnow, switchTo_scx]
    by_cases hxp : x = p
    · subst hxp
      have hcharge := charge_mul_le m.toSched x (by rw [hweight]; exact hw)
      rw [hweight] at hcharge
      rw [hself]
      refine within_mono (n := m.vtimeNow) ?_ (h.behind q hql)
      rw [h.current x hc, add_sub_cancel_left]
      exact_mod_cast hcharge
    · rw [hother x hxp]
      exact within_mono (h.within x hx) (h.behind q hql)
  · obtain rfl : q = x := Option.some.inj hx
    rw [hnow, switchTo_scx, hother q hqp]

theorem Fair.step (h : Fair v₀ l w tr m) (hnd : l.Nodup) (hlen : 2 ≤ l.length)
    (hw : ∀ p ∈ l, w p ≠ 0) (hd : Does m a t es) (ht : Turns m a) (hin : InTurn m a) :
    Fair v₀ l w (tr ++ es) t := by
  have hsettled : ∀ p ∈ l, Settled p (w p) (tr ++ es) t := by
    intro p hp
    obtain ⟨hline, hconst⟩ := h.inLine hnd hlen ht p
    exact (h.settled p hp).step (hw p hp) hd hconst hline
  have hwt := h.wf.step hd
  have hmem := h.step_mem hd ht
  have hnil := h.local_nil
  cases hd with
  | enable | wakeLocal | wakeQueue | sleep | preemptKeep | preemptQueue | setMaps => exact ht.elim
  | pickLocal hc hl => simp [hnil] at hl
  | expireLocal hc hs hl => simp [hnil] at hl
  | refill hc hs hl hdq => exact absurd hdq (h.dsq_ne_nil hnd hlen hc)
  | @run p ns hc =>
    obtain ⟨hexact, hbehind, hwithin, hcurrent⟩ := h.onClock.run p _ ns
    exact ⟨hsettled, hwt, hnil, hmem, h.enabled, hexact, hbehind, hwithin, hcurrent⟩
  | @pickMoved p hc hl hq =>
    have hdsq : ∀ x, x ∈ m.dsq ↔ x ∈ l := by
      intro x
      rw [← h.mem, held_of_none hc, hl, List.nil_append]
    obtain ⟨hexact, hbehind, hwithin, hcurrent⟩ :=
      h.onClock.pick (fun x hx => (hdsq x).mpr hx) ((hdsq p).mp (lowest_mem hq)) hq
    exact ⟨hsettled, hwt, by simp, hmem, h.enabled, hexact, hbehind, hwithin, hcurrent⟩
  | @expireMoved p q hc hs hl hq =>
    have hqp : q ≠ p := h.wf.waiting_ne hc (List.mem_append_right _ (lowest_mem hq))
    have hheld : ∀ x, x ∈ l ↔ x = p ∨ x ∈ m.dsq := by
      intro x
      rw [← h.mem, held_of_some hc, hl, List.nil_append, List.mem_cons]
    have hp : p ∈ l := (hheld p).mpr (.inl rfl)
    -- the old task is not before the new one
    have hturn : (m.scx q).dsqVtime ≤ (m.scx p).dsqVtime + (chargeOf m.toSched p).toNat := by
      have := hin p q hc hq
      rw [before_int, add_int, decide_eq_false_iff_not] at this
      omega
    obtain ⟨hexact, hbehind, hwithin, hcurrent⟩ := h.onClock.expire hc hq
      (fun x hx hxp => ((hheld x).mp hx).resolve_left hxp) hp
      ((hheld q).mpr (.inr (lowest_mem hq))) hqp (h.settled p hp).weight (hw p hp) hturn
    exact ⟨hsettled, hwt, by simp, hmem, h.enabled, hexact, hbehind, hwithin, hcurrent⟩

/-- No two tasks are further apart than one default slice. -/
theorem Fair.charged_sub_le (h : Fair v₀ l w tr m) (hw : ∀ p ∈ l, w p ≠ 0) {C : ℚ}
    (hC : ∀ p ∈ l, 10000 * 5000000 / ((w p).toNat : ℚ) ≤ C) {x y : τ} (hx : x ∈ l) (hy : y ∈ l) :
    (charged x tr : ℚ) - charged y tr ≤ C := by
  have hpos : (0 : ℚ) < (w x).toNat := by exact_mod_cast toNat_pos (hw x hx)
  have hsub : ((charged x tr : Int) - charged y tr) * (w x).toNat ≤ 50000000000 := by
    have hwithin := h.within x hx
    have hbehind := h.behind y hy
    have hn : (0 : Int) ≤ (w x).toNat := Int.natCast_nonneg _
    rw [h.exact x hx] at hwithin
    rw [h.exact y hy] at hbehind
    nlinarith
  have hsub : ((charged x tr : ℚ) - charged y tr) * (w x).toNat ≤ 50000000000 := by
    exact_mod_cast hsub
  refine le_trans ?_ (hC x hx)
  rw [le_div_iff₀ hpos]
  linarith

end Fair

/-! ## Runs of the code -/

theorem startAll_wf (s : Sched U64 τ) {l : List τ} (hnd : l.Nodup) : Wf (startAll s l) := by
  obtain ⟨-, -, -, hd, hl, hs⟩ := startAll_spec s l
  refine ⟨?_, ?_, ?_, fun p hp => by cases hp⟩
  · rw [held_of_none rfl, hl, hd]
    exact hnd
  · intro p hp
    rw [held_of_none rfl, hl, hd] at hp
    exact List.mem_toFinset.mpr hp
  · intro p hp
    rw [hl, hd] at hp
    rw [hs p hp]
    exact slice_range s p

theorem fair_start (s : Sched U64 τ) {l : List τ} (hnd : l.Nodup) :
    Fair s.vtimeNow.toNat l (fun p => (s.params p).weight) [] (ideal (startAll s l)) := by
  obtain ⟨hn, hm, ht, hd, hl, hs⟩ := startAll_spec s l
  have hwf := startAll_wf s hnd
  have hnow : (ideal (startAll s l)).vtimeNow = s.vtimeNow.toNat := by
    show ((startAll s l).vtimeNow.toNat : Int) = _
    rw [hn]
  have hv : ∀ p ∈ l, ((ideal (startAll s l)).scx p).dsqVtime = s.vtimeNow.toNat := by
    intro p hp
    show ((startAll s l).vtimeNow.toNat : Int) +
      (((startAll s l).scx p).dsqVtime - (startAll s l).vtimeNow).toInt = _
    rw [hs p hp, hn]
    simp
  refine ⟨fun p hp => ⟨wf_ideal hwf, ⟨fun _ => ?_, fun hc => by cases hc⟩, ?_, 0, ?_⟩, wf_ideal hwf,
    hl, fun p => ?_, fun p => List.mem_toFinset, fun p hp => ?_, fun p hp => ?_, fun p hp => ?_,
    fun p hc => by cases hc⟩
  · show ((startAll s l).scx p).slice = (startAll s l).sliceOf p
    rw [hs p hp, sliceOf_congr hm ht]
  · show ((startAll s l).params p).weight = _
    rw [params_congr hm ht]
  · simp [consumed, charged, stops, sinceRunning, ideal, startAll]
  · rw [held_of_none rfl]
    show p ∈ (startAll s l).localDsq ++ (startAll s l).dsq ↔ _
    rw [hl, hd, List.nil_append]
  · rw [hv p hp]
    simp [charged]
  · rw [hv p hp, hnow]
  · rw [hv p hp, hnow]
    simp

omit [DecidableEq τ] in
theorem turns_wrap {m : Machine Int τ} {a : Action τ} (h : Turns (wrapMachine m) a) :
    Turns m a := by
  cases a with
  | run ns => exact h
  | pick | expire => exact trivial
  | _ => exact h.elim

theorem Fair.inTurn_wrap {v₀ : Int} {l : List τ} {w : τ → U64} {tr : List (Event Int τ)}
    {m : Machine Int τ} {a : Action τ} (hf : Fair v₀ l w tr m) (hw : ∀ p ∈ l, w p ≠ 0)
    (h : InTurn (wrapMachine m) a) : InTurn m a := by
  cases a with
  | expire =>
    intro p q hc hq
    have hnear := hf.near hw
    have hdsq : ∀ x ∈ m.dsq, x ∈ m.enabled := fun x hx =>
      hf.wf.on x (List.mem_append_right _ (List.mem_append_right _ hx))
    have hb := h p q hc ((hnear.lowestVtime hdsq).trans hq)
    have hcharge : (chargeOf m.toSched p).toNat ≤ 50000000000 := stoppingCharge_le _ _
    have hvq := hnear.vtime q (hdsq q (lowest_mem hq))
    have hcur := hf.current p hc
    unfold window at hvq
    have hr : VClock.before (wrap (VClock.add (m.scx p).dsqVtime (chargeOf m.toSched p)))
        (wrap (m.scx q).dsqVtime) = VClock.before (VClock.add (m.scx p).dsqVtime
          (chargeOf m.toSched p)) (m.scx q).dsqVtime := by
      refine before_wrap ?_ ?_
      · rw [add_int, hcur]; omega
      · rw [add_int, hcur]; omega
    rw [← hr, wrap_add]
    exact hb
  | _ => exact trivial

section Events

variable (p : τ) (tr : List (Event Int τ))

theorem consumed_wrap : consumed p (tr.map wrapEvent) = consumed p tr := by
  unfold consumed
  rw [List.map_map]
  congr 1
  exact List.map_congr_left fun e _ => by cases e <;> rfl

omit [DecidableEq τ] in
theorem allStops_wrap : allStops (tr.map wrapEvent) = allStops tr := by
  unfold allStops
  rw [List.countP_map]
  exact List.countP_congr fun e _ => by cases e <;> rfl

end Events

/-- Weighted shares. In every run in which all tasks take turns until their
slices end, and each choice is one the old task would not have won, the CPU
times of any two tasks over their weights differ by at most `2 * C` and the
number of stops, where `C` bounds the virtual time of a default slice. -/
theorem share_bounded {s : Sched U64 τ} {l : List τ} (hnd : l.Nodup) (hlen : 2 ≤ l.length)
    (hw : ∀ p ∈ l, (s.params p).weight ≠ 0) {tr : List (Event U64 τ)} {t : Machine U64 τ}
    (h : Run step (fun m a => Turns m a ∧ InTurn m a) (startAll s l) tr t) {C : ℚ}
    (hC : ∀ p ∈ l, 10000 * 5000000 / ((s.params p).weight.toNat : ℚ) ≤ C)
    {i j : τ} (hi : i ∈ l) (hj : j ∈ l) :
    |10000 * (consumed i tr : ℚ) / (s.params i).weight.toNat -
        10000 * consumed j tr / (s.params j).weight.toNat| ≤ 2 * C + allStops tr := by
  rw [← wrapMachine_ideal (startAll s l)] at h
  have hsim : ∀ tr m a, Fair s.vtimeNow.toNat l (fun p => (s.params p).weight) tr m →
      step (wrapMachine m) a = (step m a).map fun r => (wrapMachine r.1, r.2.map wrapEvent) :=
    fun _ _ a hf => step_wrap hf.wf (hf.near hw) a
  have hok : ∀ tr m a, Fair s.vtimeNow.toNat l (fun p => (s.params p).weight) tr m →
      Turns (wrapMachine m) a ∧ InTurn (wrapMachine m) a → Turns m a ∧ InTurn m a :=
    fun _ _ _ hf hok => ⟨turns_wrap hok.1, hf.inTurn_wrap hw hok.2⟩
  obtain ⟨tr', t', -, hf, -, rfl⟩ := h.lift wrapMachine (List.map wrapEvent)
    (fun _ _ => List.map_append) rfl hsim hok
    (fun _ _ _ _ _ hf hok hs => hf.step hnd hlen hw (step_does hs) hok.1 hok.2) (fair_start s hnd)
  rw [consumed_wrap, consumed_wrap, allStops_wrap]
  have hui := (hf.settled i hi).usage (hw i hi)
  have huj := (hf.settled j hj).usage (hw j hj)
  have hsi : (stops i tr' : ℚ) ≤ allStops tr' := by exact_mod_cast stops_le_allStops i tr'
  have hsj : (stops j tr' : ℚ) ≤ allStops tr' := by exact_mod_cast stops_le_allStops j tr'
  have hij := hf.charged_sub_le hw hC hi hj
  have hji := hf.charged_sub_le hw hC hj hi
  rw [abs_le]
  constructor
  · linarith [hC j hj]
  · linarith [hC i hi]

/-- One round of a task of weight 2000 and two of weight 1000. -/
theorem share_bounded_three :
    ∃ (s : Sched U64 (Fin 3)) (t : Machine U64 (Fin 3)) (tr : List (Event U64 (Fin 3))),
      Run step (fun m a => Turns m a ∧ InTurn m a) (startAll s [0, 1, 2]) tr t ∧
      consumed 0 tr = 10000000 ∧ consumed 1 tr = 5000000 ∧
      |10000 * (consumed 0 tr : ℚ) / (s.params 0).weight.toNat -
        10000 * consumed 1 tr / (s.params 1).weight.toNat| ≤ 2 * 50000000 + allStops tr := by
  have h : Run step (fun m a => Turns m a ∧ InTurn m a)
      (startAll (k8sInit ⟨Finmap.singleton 0 ⟨2000, 0⟩, ∅⟩
        fun p : Fin 3 => ⟨BitVec.ofNat 32 p, none⟩) [0, 1, 2]) _ _ :=
    Run.of_isSome [.pick, .run 5000000, .expire, .run 5000000, .expire, .run 5000000, .expire,
      .run 5000000, .expire] (by decide) (by decide)
  exact ⟨_, _, _, h, by decide, by decide, share_bounded (by decide) (by decide) (by decide) h
    (by decide +kernel) (by decide) (by decide)⟩

/-- Weights of 9000 and 200: the two tasks alternate and get the same CPU time,
three slices each. -/
theorem alternates_whatever_weights :
    (exec step (startAll (k8sInit ⟨(Finmap.singleton 0 ⟨9000, 0⟩).insert 1 ⟨200, 0⟩, ∅⟩
        fun p : Fin 2 => ⟨BitVec.ofNat 32 p, none⟩) [0, 1])
      [.pick, .run 5000000, .expire, .run 5000000, .expire, .run 5000000, .expire, .run 5000000,
        .expire, .run 5000000, .expire, .run 5000000, .expire]).map
        (fun (_, tr) => (consumed 0 tr, consumed 1 tr, allStops tr)) =
      some (15000000, 15000000, 6) ∧
    ¬ |10000 * (15000000 : ℚ) / 9000 - 10000 * 15000000 / 200| ≤
      2 * (10000 * 5000000 / 200) + 6 := by
  refine ⟨by decide, ?_⟩
  norm_num

end K8sSched.Bpf.FairShare
