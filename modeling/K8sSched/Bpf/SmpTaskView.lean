import K8sSched.Bpf.SmpPlaces

/-! # A step of several CPUs as one task sees it

What a step can do to one task: where it was and is, its virtual time and slice
before and after, and whether it was moved. -/

namespace K8sSched.Bpf.SmpTaskView
open K8sSched.Bpf.Params K8sSched.Bpf.Ops K8sSched.Bpf.Smp K8sSched.Bpf.SmpPlaces
open K8sSched.Lib.WrapClock K8sSched.Lib.FifoQueue K8sSched.Lib.Runs

variable {κ τ : Type} [DecidableEq κ] [DecidableEq τ]

/-- The task an event is about. -/
@[simp] def taskOf : Event κ τ → τ
  | .enabled p _ => p
  | .inserted _ p _ _ _ => p
  | .direct _ _ p _ => p
  | .moved _ p => p
  | .ran _ p _ => p
  | .stopped _ p _ => p
  | .refilled _ p => p

/-- The task leaves its CPU, charged. -/
def Charged (s t : System κ τ) (x : τ) : Prop :=
  t.scx x = ⟨VClock.add (s.scx x).dsqVtime (chargeOf s x), (s.scx x).slice⟩

inductive TaskStep (s : System κ τ) (x : τ) (t : System κ τ) :
    Smp.Action κ τ → List (Event κ τ) → Prop
  | stay {a : Smp.Action κ τ} {es : List (Event κ τ)} (hat : ∀ l, At t x l ↔ At s x l)
      (hs : t.scx x = s.scx x) (hr : ∀ c, s.curr c = some x → t.ran c = s.ran c)
      (hes : ∀ e ∈ es, taskOf e ≠ x) : TaskStep s x t a es
  | enable {c : κ} (hm : At s x .absent) (ht : At t x .asleep)
      (hs : (t.scx x).dsqVtime = s.vtimeNow) :
      TaskStep s x t (.enable c x) [.enabled x s.vtimeNow]
  | wakeQueue {c : κ} (hm : At s x .asleep) (ht : At t x (.enqueued c))
      (hs : t.scx x = s.scx x) : TaskStep s x t (.wake c x none) []
  | wakeLocal {c d : κ} (hm : At s x .asleep) (ht : At t x (.waits d))
      (hs : t.scx x = ⟨(s.scx x).dsqVtime, s.sliceOf x⟩) :
      TaskStep s x t (.wake c x (some d)) [.direct c d x (s.sliceOf x)]
  | move {a : Smp.Action κ τ} {es : List (Event κ τ)} (c : κ) (hm : At s x .queued)
      (ht : At t x (.waits c)) (hs : t.scx x = s.scx x) (hq : s.lowestOn c = some x)
      (hes : ∀ e ∈ es, taskOf e ≠ x) : TaskStep s x t a (.moved c x :: es)
  | pick {c : κ} (hm : At s x (.waits c)) (ht : At t x (.cpu c)) (hs : t.scx x = s.scx x)
      (hr : t.ran c = 0) : TaskStep s x t (.proceed c) []
  | run {c : κ} {ns : Nat} (hm : At s x (.cpu c)) (ht : At t x (.cpu c))
      (hs : t.scx x = ⟨(s.scx x).dsqVtime, BitVec.ofNat 64 ((s.scx x).slice.toNat - ns)⟩)
      (hr : t.ran c = s.ran c + ns) : TaskStep s x t (.run c ns) [.ran c x ns]
  | sleep {c : κ} (hm : At s x (.cpu c)) (ht : At t x .asleep) (hs : Charged s t x) :
      TaskStep s x t (.sleep c) [.stopped c x (chargeOf s x)]
  | keep {c : κ} (hm : At s x (.cpu c)) (ht : At t x (.waits c)) (hs : Charged s t x) :
      TaskStep s x t (.preempt c) [.stopped c x (chargeOf s x)]
  | stop {a : Smp.Action κ τ} {c : κ} (es : List (Event κ τ)) (hm : At s x (.cpu c))
      (ht : At t x (.enqueued c)) (hs : Charged s t x) (h0 : (s.scx x).slice = 0)
      (hes : ∀ e ∈ es, taskOf e ≠ x) : TaskStep s x t a (es ++ [.stopped c x (chargeOf s x)])
  | insert {c : κ} {found pick : Bool} {tp : TaskParams} {now : U64}
      (hpc : s.pc c = .insert x found tp now pick) (hm : At s x (.enqueued c))
      (ht : At t x .queued)
      (hs : t.scx x = ⟨clampVtime now (s.scx x).dsqVtime, taskSlice tp⟩) :
      TaskStep s x t (.proceed c)
        [.inserted c x found (taskSlice tp) (clampVtime now (s.scx x).dsqVtime)]
  | refill {c : κ} (hm : At s x (.cpu c)) (ht : At t x (.cpu c))
      (hs : t.scx x = ⟨(s.scx x).dsqVtime, scxSliceDfl⟩) (hq : s.lowestOn c = none) :
      TaskStep s x t (.expire c) [.refilled c x]

section

variable {s t : System κ τ} {a : Smp.Action κ τ} {es : List (Event κ τ)}

theorem does_taskStep (hw : Wf s) (hd : Does s a t es) (x : τ) : TaskStep s x t a es := by
  cases hd with
  | @enable c p hout hp =>
    have hmove := moves_enable (s := s) c p
    by_cases hx : x = p
    · subst hx
      exact .enable hp hmove.entered (by simp)
    · exact .stay (hmove.other hx) (by simp [hx]) (fun _ _ => rfl) (by simp [Ne.symm hx])
  | @wakeQueue c p hout hp =>
    have hmove := moves_wakeQueue hout p
    by_cases hx : x = p
    · subst hx
      exact .wakeQueue hp hmove.entered rfl
    · exact .stay (hmove.other hx) rfl (fun _ _ => rfl) (by simp)
  | @wakeLocal c d p hout hp hpt hidle hallow =>
    have hmove := moves_wakeLocal (s := s) c d p
    by_cases hx : x = p
    · subst hx
      exact .wakeLocal hp hmove.entered (by simp)
    · exact .stay (hmove.other hx) (by simp [hx]) (fun _ _ => rfl) (by simp [Ne.symm hx])
  | @balanceLocal c hout hidle hl =>
    exact .stay (at_goto (by rw [hout]; rfl) x) rfl (fun _ _ => rfl) (by simp)
  | @balanceMoved c p hout hidle hl hq =>
    have hmove := moves_moveTo c p hw.nodup.1
    have hgoto : ∀ x l, At ((s.moveTo c p).goto c .pick) x l ↔ At (s.moveTo c p) x l :=
      at_goto (by rw [moveTo_pc, hout]; rfl)
    by_cases hx : x = p
    · subst hx
      exact .move c (lowestOn_mem hq).1 ((hgoto x _).mpr hmove.entered) rfl hq (by simp)
    · exact .stay (fun l => (hgoto x l).trans (hmove.other hx l)) rfl (fun _ _ => rfl)
        (by simp [Ne.symm hx])
  | @run c p ns hout hcur =>
    by_cases hx : x = p
    · subst hx
      exact .run hcur hcur (by simp [System.setSlice]) (by simp)
    · refine .stay (fun l => ?_) (by simp [System.setSlice, hx]) (fun c' hc' => ?_)
        (by simp [Ne.symm hx])
      · cases l <;> exact Iff.rfl
      · have hne : c' ≠ c := fun heq => hx (by
          rw [heq, hcur] at hc'
          exact (Option.some.inj hc').symm)
        simp [hne]
  | @sleep c p hout hcur =>
    have hmove := moves_sleep hcur
    by_cases hx : x = p
    · subst hx
      exact .sleep hcur hmove.entered (by simp [Charged]; rfl)
    · exact .stay (hmove.other hx) (by simp [hx]) (fun _ _ => rfl) (by simp [Ne.symm hx])
  | @preemptKeep c p hout hcur hs =>
    have hmove := moves_keep hcur
    by_cases hx : x = p
    · subst hx
      exact .keep hcur hmove.entered (by simp [Charged]; rfl)
    · exact .stay (hmove.other hx) (by simp [hx]) (fun _ _ => rfl) (by simp [Ne.symm hx])
  | @preemptQueue c p hout hcur hs =>
    have hmove := moves_requeue hout hcur false
    by_cases hx : x = p
    · subst hx
      exact .stop [] hcur hmove.entered (by simp [Charged]; rfl) hs (by simp)
    · exact .stay (hmove.other hx) (by simp [hx]) (fun _ _ => rfl) (by simp [Ne.symm hx])
  | @refill c p hout hcur hs hl hq =>
    by_cases hx : x = p
    · subst hx
      exact .refill hcur hcur (by simp [System.setSlice]) hq
    · refine .stay (fun l => ?_) (by simp [System.setSlice, hx]) (fun _ _ => rfl)
        (by simp [Ne.symm hx])
      cases l <;> exact Iff.rfl
  | @expireLocal c p hout hcur hs hl =>
    have hmove := moves_requeue hout hcur true
    by_cases hx : x = p
    · subst hx
      exact .stop [] hcur hmove.entered (by simp [Charged]; rfl) hs (by simp)
    · exact .stay (hmove.other hx) (by simp [hx]) (fun _ _ => rfl) (by simp [Ne.symm hx])
  | @expireMoved c p q hout hcur hs hl hq =>
    have hfirst := moves_moveTo c q hw.nodup.1
    have hsecond := moves_requeue (s := s.moveTo c q) (p := p) hout hcur true
    have hqp : q ≠ p := by
      rintro rfl
      exact hw.not_at (l := .cpu c) (k := .queued) hcur (by simp) (lowestOn_mem hq).1
    by_cases hx : x = p
    · subst hx
      exact .stop [.moved c q] hcur hsecond.entered (by simp [Charged]; rfl) hs
        (by simp [hqp])
    · by_cases hxq : x = q
      · subst hxq
        refine .move c (lowestOn_mem hq).1 ((hsecond.other hx _).mpr hfirst.entered)
          (by simp [hx]) hq (by simp [Ne.symm hx])
      · refine .stay (fun l => (hsecond.other hx l).trans (hfirst.other hxq l)) (by simp [hx])
          (fun _ _ => rfl) (by simp [Ne.symm hx, Ne.symm hxq])
  | lookup hpc | clamp hpc | ahead hpc | behind hpc =>
    exact .stay (at_goto (by rw [hpc]; rfl) x) rfl (fun _ _ => rfl) (by simp)
  | @insert c p found pick tp now hpc =>
    have hmove := moves_insert hpc
    have hat : At s p (.enqueued c) := by rw [At, hpc]; rfl
    by_cases hx : x = p
    · subst hx
      exact .insert hpc hat hmove.entered (by simp)
    · exact .stay (hmove.other hx) (by simp [hx]) (fun _ _ => rfl) (by simp [Ne.symm hx])
  | @pick c p rest hpc hl =>
    have hidle := hw.pcOk c
    rw [hpc] at hidle
    have hmove := moves_pick hpc hl (hw.nodup.2 c) hidle.1
    by_cases hx : x = p
    · subst hx
      exact .pick (by rw [At, hl]; exact List.mem_cons_self) hmove.entered rfl (by simp)
    · refine .stay (hmove.other hx) rfl (fun c' hc' => ?_) (by simp)
      have hne : c' ≠ c := by
        rintro rfl
        rw [hidle.1] at hc'
        cases hc'
      simp [hne]
  | @store c v hpc =>
    have hgoto : ∀ x l, At (s.goto c .outside) x l ↔ At s x l := at_goto (by rw [hpc]; rfl)
    exact .stay (hgoto x) rfl (fun _ _ => rfl) (by simp)
  | setMaps =>
    refine .stay (fun l => ?_) rfl (fun _ _ => rfl) (by simp)
    cases l <;> exact Iff.rfl

end

end K8sSched.Bpf.SmpTaskView
