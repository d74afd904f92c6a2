import Mathlib.Data.List.Infix
import K8sSched.Lib.Runs

/-! # Handing over the scheduler

`loadSchedulerWithRetry` and `schedulerContended` of `internal/sched/agent.go`
during a rolling upgrade: the kernel, the old agent, which closes its link at
some point, and the new agent, which attaches, reads the ops file after a
failure, and pauses. The old agent's scheduler is the only other one. -/

namespace K8sSched.Agent.Handover

open K8sSched.Lib.Runs

inductive Owner
  | old | new
  deriving DecidableEq

/-- The next step of `loadSchedulerWithRetry`, with the error it holds. -/
inductive Pc
  | attach
  | readOps (err : String)
  | pause
  | returned (err : Option String)
  deriving DecidableEq

structure Upgrade where
  registered : Option Owner
  cancelled : Bool
  pc : Pc
  deriving DecidableEq

inductive Action
  | detach
  | attach (cause : String)
  | readOps
  | timer
  | ctxDone
  | cancel
  deriving DecidableEq

inductive Event
  | detached
  | attached
  | attachFailed
  | opsRead
  | cancelled
  deriving DecidableEq

/-- Both agents' schedulers carry this name. -/
def opsName : String := "k8s_sched"

/-- The ops file lists the registered scheduler; without one it cannot be read. -/
def opsFile (registered : Option Owner) : Option String := registered.map fun _ => opsName ++ "\n"

def schedulerContended (ops : Option String) : Bool :=
  ops.any fun data => opsName.toList <:+: data.toList

/-- One step of one of the agents. An attach fails while a scheduler is
registered; when both the context and the timer are ready, `select` takes
either. -/
def step (s : Upgrade) : Action → Option (Upgrade × List Event)
  | .detach =>
    if s.registered = some .old then some ({ s with registered := none }, [.detached]) else none
  | .attach cause =>
    match s.pc, s.registered with
    | .attach, none => some ({ s with registered := some .new, pc := .returned none }, [.attached])
    | .attach, some _ =>
      some ({ s with pc := .readOps ("attach struct_ops: " ++ cause) }, [.attachFailed])
    | _, _ => none
  | .readOps =>
    match s.pc with
    | .readOps err =>
      if !schedulerContended (opsFile s.registered) || s.cancelled then
        some ({ s with pc := .returned (some err) }, [.opsRead])
      else some ({ s with pc := .pause }, [.opsRead])
    | _ => none
  | .timer =>
    match s.pc with
    | .pause => some ({ s with pc := .attach }, [])
    | _ => none
  | .ctxDone =>
    if s.pc = .pause ∧ s.cancelled then
      some ({ s with pc := .returned (some "context canceled") }, [])
    else none
  | .cancel => some ({ s with cancelled := true }, [.cancelled])

/-- The new agent starts while the old one is attached. -/
def upgrade : Upgrade := ⟨some .old, false, .attach⟩

theorem contended_iff (registered : Option Owner) :
    schedulerContended (opsFile registered) = registered.isSome := by
  cases registered with
  | none => rfl
  | some owner => exact (by decide : schedulerContended (some (opsName ++ "\n")) = true)

/-! ## The gap between a failed attach and the read -/

/-- The old agent detached between a failed attach and the read of the ops file
that followed it. -/
def DetachedInGap (tr : List Event) : Prop := [.attachFailed, .detached, .opsRead] <:+: tr

instance (tr : List Event) : Decidable (DetachedInGap tr) :=
  inferInstanceAs (Decidable (_ <:+: _))

theorem detachedInGap_concat (tr : List Event) (e : Event) :
    DetachedInGap (tr ++ [e]) ↔
      DetachedInGap tr ∨ (e = .opsRead ∧ [.attachFailed, .detached] <:+ tr) := by
  rw [DetachedInGap, List.infix_concat_iff, List.suffix_concat_iff, or_comm]
  refine or_congr_right ?_
  constructor
  · intro h
    rcases h with h | ⟨t, ht, hsuf⟩
    · cases h
    · have hsplit : [.attachFailed, .detached] ++ [.opsRead] = t ++ [e] := ht
      obtain ⟨rfl, hlast⟩ := List.append_inj' hsplit rfl
      exact ⟨(List.cons.inj hlast).1.symm, hsuf⟩
  · intro h
    obtain ⟨rfl, hsuf⟩ := h
    exact .inr ⟨_, rfl, hsuf⟩

theorem not_detachedInGap_concat {tr : List Event} (h : ¬ DetachedInGap tr) {e : Event}
    (he : e ≠ .opsRead) : ¬ DetachedInGap (tr ++ [e]) := by
  rw [detachedInGap_concat]
  intro hgap
  rcases hgap with hg | ⟨heq, -⟩
  · exact h hg
  · exact he heq

theorem DetachedInGap.append {tr : List Event} (h : DetachedInGap tr) (es : List Event) :
    DetachedInGap (tr ++ es) := List.IsInfix.trans h (List.prefix_append tr es).isInfix

theorem last_eq {α : Type} {l : List α} {a b c : α} (h : [a] <:+ l) (h' : [b, c] <:+ l) :
    a = c := by
  obtain ⟨x, rfl⟩ := h
  obtain ⟨y, hy⟩ := h'
  have heq : (y ++ [b]) ++ [c] = x ++ [a] := by rw [← hy]; simp
  obtain ⟨-, hlast⟩ := List.append_inj' heq rfl
  exact (List.cons.inj hlast).1.symm

/-- What the trace so far tells at each step of the new agent. -/
def Told (tr : List Event) (registered : Option Owner) : Pc → Prop
  | .attach => ¬ DetachedInGap tr ∧ registered ≠ some .new
  | .pause => ¬ DetachedInGap tr ∧ registered ≠ some .new
  | .returned none => ¬ DetachedInGap tr ∧ registered = some .new
  | .returned (some _) => DetachedInGap tr
  | .readOps _ =>
    ¬ DetachedInGap tr ∧
      (registered = some .old ∧ [.attachFailed] <:+ tr ∨
        registered = none ∧ [.attachFailed, .detached] <:+ tr)

theorem told_detach {tr : List Event} {pc : Pc} (h : Told tr (some .old) pc) :
    Told (tr ++ [.detached]) none pc := by
  match pc, h with
  | .attach, h => exact ⟨not_detachedInGap_concat h.1 (by decide), by decide⟩
  | .pause, h => exact ⟨not_detachedInGap_concat h.1 (by decide), by decide⟩
  | .returned none, h => cases h.2
  | .returned (some _), h => exact DetachedInGap.append h _
  | .readOps _, ⟨hgap, hread⟩ =>
    refine ⟨not_detachedInGap_concat hgap (by decide), .inr ⟨rfl, ?_⟩⟩
    rcases hread with ⟨-, x, rfl⟩ | ⟨hnone, -⟩
    · exact ⟨x, by simp⟩
    · cases hnone

theorem told_readOps {tr : List Event} {registered : Option Owner} {err : String}
    (h : Told tr registered (.readOps err)) :
    Told (tr ++ [.opsRead]) registered
      (if !schedulerContended (opsFile registered) then .returned (some err) else .pause) := by
  obtain ⟨hgap, ⟨rfl, hlast⟩ | ⟨rfl, hlast⟩⟩ := h
  · rw [contended_iff]
    refine ⟨?_, by decide⟩
    rw [detachedInGap_concat]
    intro hgap'
    rcases hgap' with hg | ⟨-, hsuf⟩
    · exact hgap hg
    · cases last_eq hlast hsuf
  · rw [contended_iff]
    exact (detachedInGap_concat tr .opsRead).mpr (.inr ⟨rfl, hlast⟩)

theorem told_step {tr es : List Event} {s t : Upgrade} {a : Action}
    (h : s.cancelled = false ∧ Told tr s.registered s.pc) (ha : a ≠ .cancel)
    (hs : step s a = some (t, es)) : t.cancelled = false ∧ Told (tr ++ es) t.registered t.pc := by
  obtain ⟨hctx, htold⟩ := h
  cases a with
  | detach =>
    simp only [step] at hs
    split at hs
    · next hold =>
      cases hs
      rw [hold] at htold
      exact ⟨hctx, told_detach htold⟩
    · cases hs
  | attach cause =>
    simp only [step] at hs
    split at hs
    · next hpc _ =>
      cases hs
      rw [hpc] at htold
      exact ⟨hctx, not_detachedInGap_concat htold.1 (by decide), rfl⟩
    · next owner hpc hreg =>
      cases hs
      rw [hpc, hreg] at htold
      refine ⟨hctx, not_detachedInGap_concat htold.1 (by decide), .inl ⟨?_, tr, rfl⟩⟩
      cases owner with
      | old => exact hreg
      | new => exact absurd rfl htold.2
    · cases hs
  | readOps =>
    simp only [step, hctx, Bool.or_false] at hs
    split at hs
    · next err hpc =>
      rw [hpc] at htold
      have hread := told_readOps htold
      split at hs
      · next hc =>
        cases hs
        rw [if_pos hc] at hread
        exact ⟨rfl, hread⟩
      · next hc =>
        cases hs
        rw [if_neg hc] at hread
        exact ⟨rfl, hread⟩
    · cases hs
  | timer =>
    simp only [step] at hs
    split at hs
    · next hpc =>
      cases hs
      rw [hpc] at htold
      rw [List.append_nil]
      exact ⟨hctx, htold⟩
    · cases hs
  | ctxDone =>
    simp [step, hctx] at hs
  | cancel => exact absurd rfl ha

theorem run_told {s : Upgrade} {tr : List Event}
    (hrun : Run step (fun _ a => a ≠ .cancel) upgrade tr s) :
    s.cancelled = false ∧ Told tr s.registered s.pc := by
  have h0 : upgrade.cancelled = false ∧ Told [] upgrade.registered upgrade.pc :=
    ⟨rfl, by decide, by decide⟩
  exact hrun.invariant (I := fun tr s => s.cancelled = false ∧ Told tr s.registered s.pc) h0
    fun _ _ _ _ _ ih hok hs => told_step ih hok hs

/-- As long as its context is not cancelled, the new agent has returned an error
exactly when the old agent detached between one of its failed attaches and the
read of the ops file after it. -/
theorem returns_error_iff {s : Upgrade} {tr : List Event}
    (hrun : Run step (fun _ a => a ≠ .cancel) upgrade tr s) :
    (∃ err, s.pc = .returned (some err)) ↔ DetachedInGap tr := by
  obtain ⟨-, htold⟩ := run_told hrun
  match hpc : s.pc, htold with
  | .attach, htold => exact iff_of_false (by rintro ⟨_, h⟩; cases h) htold.1
  | .pause, htold => exact iff_of_false (by rintro ⟨_, h⟩; cases h) htold.1
  | .readOps _, htold => exact iff_of_false (by rintro ⟨_, h⟩; cases h) htold.1
  | .returned none, htold => exact iff_of_false (by rintro ⟨_, h⟩; cases h) htold.1
  | .returned (some err), htold => exact iff_of_true ⟨err, rfl⟩ htold

theorem returns_error_iff_paused :
    ∃ s tr, exec step upgrade
        [.attach "device or resource busy", .readOps, .detach, .timer, .attach ""] = some (s, tr) ∧
      ¬ ∃ err, s.pc = .returned (some err) := by
  have hrun : Run step (fun _ a => a ≠ .cancel) upgrade _ _ :=
    Run.of_isSome [.attach "device or resource busy", .readOps, .detach, .timer, .attach ""]
      (by decide) (by decide)
  exact ⟨_, _, rfl, fun h => absurd ((returns_error_iff hrun).mp h) (by decide)⟩

/-- The old agent detaches right after the new one's attach has failed: the ops
file no longer lists it, and the new agent gives up. -/
theorem gives_up_after_detach :
    (exec step upgrade [.attach "device or resource busy", .detach, .readOps]).map
        (fun r => (r.1.pc, r.1.registered)) =
      some (.returned (some "attach struct_ops: device or resource busy"), none) := by
  decide

/-- When the old agent has detached outside that gap, the next attach of the new
agent, after the pause it may be in, succeeds. -/
theorem takes_over {s : Upgrade} {tr : List Event}
    (hrun : Run step (fun _ a => a ≠ .cancel) upgrade tr s) (hreg : s.registered = none)
    (hgap : ¬ [.attachFailed, .detached] <:+: tr) (cause : String) :
    ∃ as ∈ [[.attach cause], [.timer, .attach cause]],
      (exec step s as).map Prod.fst = some ⟨some .new, false, .returned none⟩ := by
  obtain ⟨hctx, htold⟩ := run_told hrun
  obtain ⟨registered, cancelled, pc⟩ := s
  subst hreg hctx
  match pc, htold with
  | .attach, _ => exact ⟨_, List.mem_cons_self, rfl⟩
  | .pause, _ => exact ⟨_, List.mem_cons_of_mem _ List.mem_cons_self, rfl⟩
  | .returned none, htold => cases htold.2
  | .returned (some _), htold =>
    have hinfix : [.attachFailed, .detached, .opsRead] <:+: tr := htold
    exact absurd ((show [Event.attachFailed, .detached] <:+: [.attachFailed, .detached, .opsRead]
      from ⟨[], [.opsRead], rfl⟩).trans hinfix) hgap
  | .readOps _, ⟨_, hread⟩ =>
    rcases hread with ⟨hold, -⟩ | ⟨-, hsuf⟩
    · cases hold
    · exact absurd hsuf.isInfix hgap

end K8sSched.Agent.Handover
