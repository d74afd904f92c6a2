import K8sSched.Bpf.SmpPlaces
import K8sSched.Bpf.Places
import Mathlib.Data.Finset.Filter

/-! # Several CPUs that are one

With one CPU the callbacks cannot interleave, and running each of them to its end
gives the machine in which they are single steps: what one of the two can do the
other can, with the same events. Only the agent gets in between. A rewrite of the
maps while a callback is under way counts as one after it, unless `k8s_enqueue`
has yet to look up the parameters. -/

namespace K8sSched.Bpf.SmpOneCpu
open K8sSched.Bpf.Params K8sSched.Bpf.Ops K8sSched.Bpf.Smp
open K8sSched.Bpf.OneCpu (Machine switchTo requeue)
open K8sSched.Bpf.Places (held)
open K8sSched.Lib.WrapClock K8sSched.Lib.FifoQueue K8sSched.Lib.Runs

variable {τ : Type} [DecidableEq τ]

/-- The system with one CPU, which every task may use. -/
def oneCpu (s : Sched U64 τ) (enabled asleep : Finset τ) (curr : Option τ) (ran : Nat) (pc : Pc τ) :
    System Unit τ where
  vtimeNow := s.vtimeNow
  maps := s.maps
  stats := fun _ => s.stats
  task := s.task
  allowed := fun _ _ => true
  scx := s.scx
  dsq := s.dsq
  localDsq := fun _ => s.localDsq
  enabled := enabled
  asleep := asleep
  curr := fun _ => curr
  ran := fun _ => ran
  pc := fun _ => pc

/-- The tasks that do not hold a slice. -/
def asleep (m : Machine U64 τ) : Finset τ := m.enabled.filter (· ∉ held m)

/-- The machine between callbacks. -/
def smp (m : Machine U64 τ) : System Unit τ :=
  oneCpu m.toSched m.enabled (asleep m) m.curr m.ran .outside

/-- The action that begins the same callback. -/
def act : OneCpu.Action τ → Smp.Action Unit τ
  | .enable p => .enable () p
  | .wake p isIdle => .wake () p (if isIdle then some () else none)
  | .pick => .balance ()
  | .run ns => .run () ns
  | .sleep => .sleep ()
  | .preempt => .preempt ()
  | .expire => .expire ()
  | .setMaps maps => .setMaps maps

/-- The event as the machine has it; it has none for an insert. -/
def observed : Event Unit τ → Option (OneCpu.Event U64 τ)
  | .enabled p vtime => some (.enabled p vtime)
  | .inserted .. => none
  | .direct .. => none
  | .moved _ p => some (.moved p)
  | .ran _ p ns => some (.ran p ns)
  | .stopped _ p charge => some (.stopped p charge)
  | .refilled _ p => some (.refilled p)

/-- The callback the CPU is in, run to its end, leads there. -/
inductive Settles : System Unit τ → System Unit τ → Prop
  | done {s : System Unit τ} (hpc : s.pc () = .outside) : Settles s s
  | next {s t u : System Unit τ} {es : List (Event Unit τ)}
      (hs : step s (.proceed ()) = some (t, es)) (h : Settles t u) : Settles s u

/-! ## Callbacks to their end -/

section Settles

variable (s : Sched U64 τ) (e a : Finset τ) (cur : Option τ) (r : Nat) (pc pc' : Pc τ) (p : τ)

theorem update_unit {β : Type} (f : Unit → β) (b : β) : Function.update f () b = fun _ => b := by
  funext c
  cases c
  exact Function.update_self ..

omit [DecidableEq τ] in
theorem oneCpu_goto : (oneCpu s e a cur r pc).goto () pc' = oneCpu s e a cur r pc' := rfl

theorem stop_oneCpu :
    stop (oneCpu s e a cur r pc) () p = oneCpu (k8sStopping s p) e a none r pc := rfl

theorem Settles.running :
    Settles (oneCpu s e a cur r (.running p)) (oneCpu (k8sRunning s p) e a cur r .outside) := by
  have hread : step (oneCpu s e a cur r (.running p)) (.proceed ()) =
      some (oneCpu s e a cur r (if VClock.before s.vtimeNow (s.scx p).dsqVtime
        then .store (s.scx p).dsqVtime else .outside), []) := rfl
  refine .next hread ?_
  unfold k8sRunning
  split
  · exact .next rfl (.done rfl)
  · exact .done rfl

theorem Settles.pick {rest : List τ} (hl : s.localDsq = p :: rest) :
    Settles (oneCpu s e a cur r .pick)
      (oneCpu (k8sRunning { s with localDsq := rest } p) e a (some p) 0 .outside) := by
  have hpick : step (oneCpu s e a cur r .pick) (.proceed ()) =
      some (oneCpu { s with localDsq := rest } e a (some p) 0 (.running p), []) := by
    simp [step, proceed, oneCpu, hl, update_unit]
  exact .next hpick (.running ..)

theorem Settles.enqueue {pick : Bool} {u : System Unit τ}
    (h : Settles (oneCpu (k8sEnqueue s p) e a cur r (if pick then .pick else .outside)) u) :
    Settles (oneCpu s e a cur r (.enqueue p pick)) u :=
  .next rfl (.next rfl (.next rfl h))

end Settles

/-! ## One action -/

section Action

variable {m t : Machine U64 τ} {a : OneCpu.Action τ} {es : List (OneCpu.Event U64 τ)} {p : τ}

theorem mem_asleep {x : τ} : x ∈ asleep m ↔ x ∈ m.enabled ∧ x ∉ held m := by
  simp [asleep]

theorem asleep_congr (h : ∀ x, x ∈ held t ↔ x ∈ held m) (he : t.enabled = m.enabled) :
    asleep t = asleep m := by
  ext x
  rw [mem_asleep, mem_asleep, h, he]

theorem asleep_woken (h : ∀ x, x ∈ held t ↔ x = p ∨ x ∈ held m) (he : t.enabled = m.enabled) :
    asleep t = (asleep m).erase p := by
  ext x
  rw [mem_asleep, Finset.mem_erase, mem_asleep, h, he, not_or]
  tauto

theorem asleep_slept (hw : Places.Wf m) (hc : m.curr = some p)
    (ht : held t = m.localDsq ++ m.dsq) (he : t.enabled = m.enabled) :
    asleep t = insert p (asleep m) := by
  have hm := Places.held_of_some hc
  have hp : p ∈ m.enabled := hw.on p (by rw [hm]; exact List.mem_cons_self)
  have hn : p ∉ m.localDsq ++ m.dsq := by
    have hnodup := hw.nodup
    rw [hm] at hnodup
    exact (List.nodup_cons.mp hnodup).1
  ext x
  rw [mem_asleep, Finset.mem_insert, mem_asleep, hm, ht, he, List.mem_cons, not_or]
  by_cases hx : x = p
  · subst hx
    exact iff_of_true ⟨hp, hn⟩ (.inl rfl)
  · simp [hx]

/-- The callback ends in the machine if the sleeping tasks come out right. -/
theorem Settles.smp {s : System Unit τ} {z : Finset τ}
    (h : Settles s (oneCpu t.toSched t.enabled z t.curr t.ran .outside)) (hz : asleep t = z) :
    Settles s (smp t) := by
  subst hz
  exact h

theorem lowestOn_smp : (smp m).lowestOn () = m.lowestVtime := by
  simp [System.lowestOn, smp, oneCpu, Sched.lowestVtime]

theorem asleep_enabled (hw : Places.Wf m) (hp : p ∉ m.enabled)
    (ht : t.enabled = insert p m.enabled) (hheld : held t = held m) :
    asleep t = insert p (asleep m) := by
  have hnot : p ∉ held m := fun h => hp (hw.on p h)
  ext x
  rw [mem_asleep, Finset.mem_insert, mem_asleep, ht, hheld, Finset.mem_insert]
  by_cases hx : x = p
  · subst hx
    exact iff_of_true ⟨.inl rfl, hnot⟩ (.inl rfl)
  · simp [hx]

/-- Only waking up and falling asleep change which tasks hold a slice. -/
theorem mem_held (hd : OneCpu.Does m a t es) (hwake : ∀ p b, a ≠ .wake p b) (hsleep : a ≠ .sleep)
    (x : τ) : x ∈ held t ↔ x ∈ held m := by
  rcases Places.does_held hd with ⟨p, b, ha, -⟩ | ⟨p, ha, -⟩ | h
  · exact absurd ha (hwake p b)
  · exact absurd ha hsleep
  · exact h.mem_iff

/-- What the machine does, the system begins, and its callback ends there. -/
theorem smp_does (hw : Places.Wf m) (hd : OneCpu.Does m a t es) :
    ∃ s' es', Does (smp m) (act a) s' es' ∧ es'.filterMap observed = es ∧ Settles s' (smp t) := by
  have hlocal : (smp m).localDsq () = m.localDsq := rfl
  have hheld := mem_held hd
  cases hd with
  | enable hp =>
    exact ⟨_, _, .enable rfl hp, rfl, .smp (.done rfl) (asleep_enabled hw hp rfl rfl)⟩
  | @wakeLocal p hp hd hl hc =>
    have hasleep : p ∈ asleep m := mem_asleep.mpr ⟨hp, by simp [held, hd, hl, hc]⟩
    refine ⟨_, _, .wakeLocal rfl hasleep rfl hc rfl, rfl, .smp (.done rfl) ?_⟩
    exact asleep_woken (fun x => by simp [held, hc]; tauto) rfl
  | @wakeQueue p hp hd hl hc =>
    have hasleep : p ∈ asleep m := mem_asleep.mpr ⟨hp, by simp [held, hd, hl, hc]⟩
    refine ⟨_, _, .wakeQueue rfl hasleep, rfl, .smp (.enqueue _ _ _ _ _ _ (.done rfl)) ?_⟩
    exact asleep_woken (fun x => by simp [held]; tauto) rfl
  | pickLocal hc hl =>
    exact ⟨_, _, .balanceLocal rfl hc (by simp [hlocal, hl]), rfl,
      .smp (.pick _ _ _ _ _ _ hl) (asleep_congr (hheld (by simp) (by simp)) rfl)⟩
  | @pickMoved p hc hl hq =>
    have hmove : ((smp m).moveTo () p).goto () .pick =
        oneCpu { m.toSched with dsq := m.dsq.erase p, localDsq := m.localDsq ++ [p] } m.enabled
          (asleep m) m.curr m.ran .pick := rfl
    refine ⟨_, _, .balanceMoved rfl hc hl (lowestOn_smp.trans hq), rfl, ?_⟩
    rw [hmove]
    exact .smp (.pick _ _ _ _ _ p (by simp [hl])) (asleep_congr (hheld (by simp) (by simp)) rfl)
  | run hc => exact ⟨_, _, .run rfl hc, rfl, .smp (.done rfl) rfl⟩
  | sleep hc => exact ⟨_, _, .sleep rfl hc, rfl, .smp (.done rfl) (asleep_slept hw hc rfl rfl)⟩
  | preemptKeep hc hs =>
    exact ⟨_, _, .preemptKeep rfl hc hs, rfl,
      .smp (.done rfl) (asleep_congr (hheld (by simp) (by simp)) rfl)⟩
  | preemptQueue hc hs =>
    refine ⟨_, _, .preemptQueue rfl hc hs, rfl, ?_⟩
    rw [smp, stop_oneCpu, oneCpu_goto]
    exact .smp (.enqueue _ _ _ _ _ _ (.done rfl)) (asleep_congr (hheld (by simp) (by simp)) rfl)
  | refill hc hs hl hd =>
    refine ⟨_, _, .refill rfl hc hs hl ?_, rfl, .smp (.done rfl) rfl⟩
    rw [lowestOn_smp]
    exact lowest_eq_none.mpr hd
  | expireLocal hc hs hl =>
    refine ⟨_, _, .expireLocal rfl hc hs (by simp [hlocal, hl]), rfl, ?_⟩
    rw [smp, stop_oneCpu, oneCpu_goto]
    exact .smp (.enqueue _ _ _ _ _ _ (.pick _ _ _ _ _ _ hl))
      (asleep_congr (hheld (by simp) (by simp)) rfl)
  | @expireMoved p q hc hs hl hq =>
    have hmove : (smp m).moveTo () q =
        oneCpu { m.toSched with dsq := m.dsq.erase q, localDsq := m.localDsq ++ [q] } m.enabled
          (asleep m) m.curr m.ran .outside := rfl
    refine ⟨_, _, .expireMoved rfl hc hs hl (lowestOn_smp.trans hq), rfl, ?_⟩
    rw [hmove, stop_oneCpu, oneCpu_goto]
    exact .smp (.enqueue _ _ _ _ _ _ (.pick _ _ _ _ _ q (by simp [hl])))
      (asleep_congr (hheld (by simp) (by simp)) rfl)
  | setMaps => exact ⟨_, _, .setMaps, rfl, .smp (.done rfl) rfl⟩

/-- What the system begins, the machine can do. -/
theorem act_isSome {b : Smp.Action Unit τ} {s' : System Unit τ} {es' : List (Event Unit τ)}
    (hb : ∀ c, b ≠ .proceed c) (hd : Does (smp m) b s' es') :
    ∃ a, b = act a ∧ (OneCpu.step m a).isSome := by
  have hasleep : ∀ {p}, p ∈ (smp m).asleep → p ∈ m.enabled ∧ p ∉ m.dsq ∧ p ∉ m.localDsq ∧
      m.curr ≠ some p := by
    intro p hp
    obtain ⟨hp, hn⟩ := mem_asleep.mp hp
    simp only [held, List.mem_append, Option.mem_toList, not_or] at hn
    exact ⟨hp, hn.2.2, hn.2.1, hn.1⟩
  have hcur : ∀ c, (smp m).curr c = m.curr := fun _ => rfl
  have hlocal : ∀ c, (smp m).localDsq c = m.localDsq := fun _ => rfl
  cases hd with
  | @enable _ p hout hp => exact ⟨.enable p, rfl, by simp [OneCpu.step, show p ∉ m.enabled from hp]⟩
  | @wakeQueue _ p hout hp =>
    obtain ⟨hp, hd, hl, hc⟩ := hasleep hp
    exact ⟨.wake p false, rfl, by simp [OneCpu.step, hp, hd, hl, hc]⟩
  | @wakeLocal _ _ p hout hp hpt hidle hallow =>
    obtain ⟨hp, hd, hl, hc⟩ := hasleep hp
    exact ⟨.wake p true, rfl, by simp [OneCpu.step, hp, hd, hl, (hcur _).symm.trans hidle]⟩
  | balanceLocal hout hidle hl =>
    rw [hcur] at hidle
    rw [hlocal] at hl
    obtain ⟨q, rest, hl⟩ := List.exists_cons_of_ne_nil hl
    exact ⟨.pick, rfl, by simp [OneCpu.step, hidle, OneCpu.balance_of_local hl, hl]⟩
  | balanceMoved hout hidle hl hq =>
    rw [hcur] at hidle
    rw [hlocal] at hl
    rw [lowestOn_smp] at hq
    exact ⟨.pick, rfl, by simp [OneCpu.step, hidle, OneCpu.balance_of_some hl hq]⟩
  | @run _ p ns hout hc =>
    rw [hcur] at hc
    exact ⟨.run ns, rfl, by simp [OneCpu.step, hc]⟩
  | sleep hout hc =>
    rw [hcur] at hc
    exact ⟨.sleep, rfl, by simp [OneCpu.step, hc]⟩
  | @preemptKeep _ p hout hc hs | @preemptQueue _ p hout hc hs =>
    rw [hcur] at hc
    refine ⟨.preempt, rfl, ?_⟩
    simp only [OneCpu.step, hc]
    split <;> rfl
  | @refill _ p hout hc hs hl hq =>
    have hs : (m.scx p).slice = 0 := hs
    rw [hcur] at hc
    rw [hlocal] at hl
    rw [lowestOn_smp] at hq
    exact ⟨.expire, rfl, by simp [OneCpu.step, hc, hs, OneCpu.balance_of_none hl hq, hl]⟩
  | @expireLocal _ p hout hc hs hl =>
    have hs : (m.scx p).slice = 0 := hs
    rw [hcur] at hc
    rw [hlocal] at hl
    obtain ⟨q, rest, hl⟩ := List.exists_cons_of_ne_nil hl
    exact ⟨.expire, rfl, by simp [OneCpu.step, hc, hs, OneCpu.balance_of_local hl, hl]⟩
  | @expireMoved _ p q hout hc hs hl hq =>
    have hs : (m.scx p).slice = 0 := hs
    rw [hcur] at hc
    rw [hlocal] at hl
    rw [lowestOn_smp] at hq
    exact ⟨.expire, rfl, by simp [OneCpu.step, hc, hs, OneCpu.balance_of_some hl hq]⟩
  | lookup | clamp | insert | pick | ahead | behind | store => exact absurd rfl (hb _)
  | @setMaps maps => exact ⟨.setMaps maps, rfl, rfl⟩

/-- Both take the same actions, with the same events, to the same state. -/
theorem does_machine (hw : Places.Wf m) {b : Smp.Action Unit τ} {s' : System Unit τ}
    {es' : List (Event Unit τ)} (hb : ∀ c, b ≠ .proceed c) (hd : Does (smp m) b s' es') :
    ∃ a t es, OneCpu.step m a = some (t, es) ∧ es'.filterMap observed = es ∧
      Settles s' (smp t) := by
  obtain ⟨a, rfl, ha⟩ := act_isSome hb hd
  obtain ⟨⟨t, es⟩, hstep⟩ := Option.isSome_iff_exists.mp ha
  obtain ⟨s'', es'', hd', hes, hset⟩ := smp_does hw (OneCpu.step_does hstep)
  obtain ⟨rfl, rfl⟩ := Prod.mk.inj (Option.some.inj ((does_step hd).symm.trans (does_step hd')))
  exact ⟨a, t, es, hstep, hes, hset⟩

end Action

/-! ## Runs -/

/-- The callback has yet to look up the parameters. -/
def looksUp : Pc τ → Bool
  | .enqueue _ _ => true
  | _ => false

/-- The agent keeps off the maps between the charge of a task and the lookup of
its parameters for the insert. -/
def Apart (s : System Unit τ) : Smp.Action Unit τ → Prop
  | .setMaps _ => looksUp (s.pc ()) = false
  | _ => True

instance (s : System Unit τ) : ∀ a, Decidable (Apart s a)
  | .setMaps _ => inferInstanceAs (Decidable (_ = _))
  | .enable _ _ | .wake _ _ _ | .balance _ | .run _ _ | .sleep _ | .preempt _ | .expire _
  | .proceed _ => .isTrue trivial

section Runs

variable {m : Machine U64 τ} {s t u : System Unit τ}

theorem Settles.eq_of_outside (h : Settles s u) (hpc : s.pc () = .outside) : u = s := by
  cases h with
  | done => rfl
  | next hs h => simp [step, proceed, hpc] at hs

/-- From the lookup on, a callback does not read the maps. -/
theorem proceed_setMaps {es : List (Event Unit τ)} (hs : step s (.proceed ()) = some (t, es))
    (hpc : looksUp (s.pc ()) = false) (maps : ParamMaps) :
    (∃ es', step { s with maps := maps } (.proceed ()) = some ({ t with maps := maps }, es')) ∧
      looksUp (t.pc ()) = false := by
  cases step_does hs with
  | lookup hpc' => simp [hpc', looksUp] at hpc
  | clamp hpc' => exact ⟨⟨_, does_step (.clamp hpc')⟩, rfl⟩
  | @insert _ p found pick tp now hpc' =>
    refine ⟨⟨_, does_step (.insert hpc')⟩, ?_⟩
    cases pick <;> rfl
  | pick hpc' hl => exact ⟨⟨_, does_step (.pick hpc' hl)⟩, rfl⟩
  | ahead hpc' hb => exact ⟨⟨_, does_step (.ahead hpc' hb)⟩, rfl⟩
  | behind hpc' hb => exact ⟨⟨_, does_step (.behind hpc' hb)⟩, rfl⟩
  | store hpc' => exact ⟨⟨_, does_step (.store hpc')⟩, rfl⟩

theorem Settles.setMaps (h : Settles s u) (hpc : looksUp (s.pc ()) = false)
    (maps : ParamMaps) : Settles { s with maps := maps } { u with maps := maps } := by
  induction h with
  | done hout => exact .done hout
  | next hs h ih =>
    obtain ⟨⟨es', hs'⟩, hpc'⟩ := proceed_setMaps hs hpc maps
    exact .next hs' (ih hpc')

/-- The steps that end a callback show nothing but inserts. -/
theorem observed_proceed {es : List (Event Unit τ)} (hs : step s (.proceed ()) = some (t, es)) :
    es.filterMap observed = [] := by
  cases step_does hs <;> rfl

theorem Settles.run (h : Settles s u) :
    ∃ tr, Run step Apart s tr u ∧ tr.filterMap observed = [] := by
  induction h with
  | done hpc => exact ⟨[], .refl, rfl⟩
  | @next s t u es hs h ih =>
    obtain ⟨tr, hrun, htr⟩ := ih
    have hok : Apart s (.proceed ()) := trivial
    have hfirst : Run step Apart s ([] ++ es) t := .tail .refl hok hs
    refine ⟨_, hfirst.trans hrun, ?_⟩
    rw [List.filterMap_append, List.nil_append, observed_proceed hs, htr]
    rfl

/-- A step of the system is one of the machine, or goes on with a callback that
the machine has done already. -/
theorem settles_step (hw : Places.Wf m) (h : Settles s (smp m)) {a : Smp.Action Unit τ}
    {es : List (Event Unit τ)} (ha : Apart s a) (hs : step s a = some (t, es)) :
    (es.filterMap observed = [] ∧ Settles t (smp m)) ∨
      ∃ a' m', OneCpu.step m a' = some (m', es.filterMap observed) ∧ Settles t (smp m') := by
  by_cases hproc : a = .proceed ()
  · subst hproc
    refine .inl ⟨observed_proceed hs, ?_⟩
    cases h with
    | done hpc => simp [step, proceed, hpc] at hs
    | next hs' h =>
      obtain ⟨rfl, rfl⟩ := Prod.mk.inj (Option.some.inj (hs.symm.trans hs'))
      exact h
  · refine .inr ?_
    by_cases hpc : s.pc () = .outside
    · obtain rfl := h.eq_of_outside hpc
      obtain ⟨a', m', es', hstep, rfl, hset⟩ :=
        does_machine hw (fun c => by cases c; exact hproc) (step_does hs)
      exact ⟨a', m', hstep, hset⟩
    · cases step_does hs with
      | @setMaps maps => exact ⟨.setMaps maps, _, rfl, h.setMaps ha maps⟩
      | enable hout | wakeQueue hout | wakeLocal hout | balanceLocal hout | balanceMoved hout
      | run hout | sleep hout | preemptKeep hout | preemptQueue hout | refill hout
      | expireLocal hout | expireMoved hout => exact absurd hout hpc
      | lookup | clamp | insert | pick | ahead | behind | store => exact absurd rfl hproc

/-- On one CPU, the system whose callbacks take several steps and the machine
whose callbacks take one have the same runs: every state the system reaches is
in a callback that ends in a state the machine reaches with the same events, and
every state of the machine is reached by the system. -/
theorem one_cpu_runs (hw : Places.Wf m) :
    (∀ tr s, Run step Apart (smp m) tr s →
      ∃ t, Run OneCpu.step (fun _ _ => True) m (tr.filterMap observed) t ∧ Settles s (smp t)) ∧
    ∀ tr' t, Run OneCpu.step (fun _ _ => True) m tr' t →
      ∃ tr, Run step Apart (smp m) tr (smp t) ∧ tr.filterMap observed = tr' := by
  constructor
  · intro tr s h
    refine h.invariant (I := fun tr s => ∃ t,
      Run OneCpu.step (fun _ _ => True) m (tr.filterMap observed) t ∧ Settles s (smp t))
      ⟨m, .refl, .done rfl⟩ ?_
    rintro tr s a u es ⟨t, hrun, hset⟩ ha hs
    rw [List.filterMap_append]
    rcases settles_step (Places.run_wf hrun hw) hset ha hs with ⟨hes, hset'⟩ | ⟨a', t', hs', hset'⟩
    · rw [hes, List.append_nil]
      exact ⟨t, hrun, hset'⟩
    · exact ⟨t', hrun.tail trivial hs', hset'⟩
  · intro tr' t h
    have hall := h.invariant (I := fun tr' t => Places.Wf t ∧
      ∃ tr, Run step Apart (smp m) tr (smp t) ∧ tr.filterMap observed = tr')
      ⟨hw, [], .refl, rfl⟩ ?_
    · exact hall.2
    · rintro tr' t a u es ⟨hwt, tr, hrun, rfl⟩ - hs
      have hd := OneCpu.step_does hs
      obtain ⟨s', es', hd', rfl, hset⟩ := smp_does hwt hd
      obtain ⟨tr₂, hrun₂, htr₂⟩ := hset.run
      have hok : Apart (smp t) (act a) := by
        cases a with
        | setMaps maps => rfl
        | _ => trivial
      refine ⟨hwt.step hd, _, (hrun.tail hok (does_step hd')).trans hrun₂, ?_⟩
      rw [List.filterMap_append, List.filterMap_append, htr₂, List.append_nil]

end Runs

/-- The agent gives a task a budget while it is being enqueued; the task still gets
the default slice, as if the maps had been written afterwards. -/
theorem one_cpu_runs_rewrite :
    ∃ (tr : List (Event Unit Bool)) (s : System Unit Bool) (t : Machine U64 Bool),
      Run step Apart (smp (Places.boot (k8sInit ⟨∅, ∅⟩ fun _ => ⟨0, none⟩))) tr s ∧
        s.dsq = [true] ∧ (s.scx true).slice = defaultSliceNs ∧
        Run OneCpu.step (fun _ _ => True) (Places.boot (k8sInit ⟨∅, ∅⟩ fun _ => ⟨0, none⟩))
          [.enabled true 0] t ∧ Settles s (smp t) := by
  have h : Run step Apart (smp (Places.boot (k8sInit ⟨∅, ∅⟩ fun _ => ⟨0, none⟩))) _ _ :=
    Run.of_isSome [.enable () true, .wake () true none, .proceed (),
      .setMaps ⟨.insert 0 ⟨10, 1000⟩ ∅, ∅⟩, .proceed (), .proceed ()] (by decide) (by decide)
  obtain ⟨t, hrun, hset⟩ := (one_cpu_runs (Places.boot_wf _)).1 _ _ h
  exact ⟨_, _, t, h, by decide, by decide, hrun, hset⟩

end K8sSched.Bpf.SmpOneCpu
