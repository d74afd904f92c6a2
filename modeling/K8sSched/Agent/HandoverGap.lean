import K8sSched.Agent.Handover
import K8sSched.Agent.Lifecycle

/-! # How long the node is without a scheduler

The rolling upgrade with time: the new agent pauses for the retry interval after
a failed attach, and takes no longer than a given delay for each of its steps.
From the moment the old agent detaches, the node falls back to the default
scheduler for at most the interval and two such delays, unless the new agent
gives up. -/

namespace K8sSched.Agent.HandoverGap
open K8sSched.Agent.Handover K8sSched.Lib.Runs
open K8sSched.Agent.Lifecycle (attachRetryInterval)

/-- The upgrade, the time, and when the new agent came to its present step. -/
structure Timed where
  upgrade : Upgrade
  now : Nat
  since : Nat

inductive Action
  | tick (ns : Nat)
  | act (a : Handover.Action)

/-- The timer of the pause fires once the interval is over. -/
def ripe (s : Timed) : Handover.Action → Bool
  | .timer => s.since + attachRetryInterval ≤ s.now
  | _ => true

def step (s : Timed) : Action → Option (Timed × List (Handover.Event × Nat))
  | .tick ns => some ({ s with now := s.now + ns }, [])
  | .act a =>
    if ripe s a then
      (Handover.step s.upgrade a).map fun r =>
        (⟨r.1, s.now, if r.1.pc = s.upgrade.pc then s.since else s.now⟩,
          r.2.map fun e => (e, s.now))
    else none

/-- The latest moment of the new agent's next step. -/
def due (delay : Nat) (s : Timed) : Option Nat :=
  match s.upgrade.pc with
  | .attach | .readOps _ => some (s.since + delay)
  | .pause => some (s.since + attachRetryInterval + delay)
  | .returned _ => none

/-- The context is not cancelled, and time does not pass beyond the moment at
which the new agent takes its next step. -/
def Prompt (delay : Nat) (s : Timed) : Action → Prop
  | .tick ns => ∀ d ∈ due delay s, s.now + ns ≤ d
  | .act a => a ≠ .cancel

instance (delay : Nat) (s : Timed) : (a : Action) → Decidable (Prompt delay s a)
  | .tick _ => inferInstanceAs (Decidable (∀ d ∈ due delay s, _))
  | .act _ => inferInstanceAs (Decidable (_ ≠ _))

def start : Timed := ⟨upgrade, 0, 0⟩

/-! ## Steps -/

/-- How late the new agent can have come to its step, the old one having detached
at `time`: it does not pause again, since no scheduler is in its way. -/
def Reached (delay time since : Nat) : Pc → Prop
  | .attach => since ≤ time + attachRetryInterval + delay
  | .readOps _ => since ≤ time
  | .pause => since ≤ time
  | .returned _ => True

structure Inv (delay : Nat) (tr : List (Handover.Event × Nat)) (s : Timed) : Prop where
  untimed : Run Handover.step (fun _ a => a ≠ .cancel) upgrade (tr.map Prod.fst) s.upgrade
  since : s.since ≤ s.now
  prompt : ∀ d ∈ due delay s, s.now ≤ d
  fresh : s.upgrade.registered = some .old → ∀ time, (.detached, time) ∉ tr
  reached : s.upgrade.registered = none → ∀ time, (.detached, time) ∈ tr →
    Reached delay time s.since s.upgrade.pc

section Steps

variable {delay : Nat} {tr es : List (Handover.Event × Nat)} {s t : Timed}

/-- The next step of the new agent is due after it came to it. -/
theorem le_due {d : Nat} (hd : d ∈ due delay s) : s.since ≤ d := by
  unfold due at hd
  split at hd
  · cases hd
    omega
  · cases hd
    omega
  · cases hd
    omega
  · cases hd

theorem Inv.tick (h : Inv delay tr s) {ns : Nat} (hok : Prompt delay s (.tick ns)) :
    Inv delay tr { s with now := s.now + ns } :=
  ⟨h.untimed, Nat.le_trans h.since (Nat.le_add_right _ _), hok, h.fresh, h.reached⟩

/-- A new step of the new agent, begun now, with a scheduler registered or the
new agent back from its loop. -/
theorem Inv.begin (h : Inv delay tr s) {u : Upgrade} {e : Handover.Event}
    (hrun : Run Handover.step (fun _ a => a ≠ .cancel) upgrade
      ((tr ++ [(e, s.now)]).map Prod.fst) u) (he : e ≠ .detached)
    (hold : u.registered = some .old → s.upgrade.registered = some .old)
    (hnone : u.registered = none → ∃ err, u.pc = .returned err) :
    Inv delay (tr ++ [(e, s.now)]) ⟨u, s.now, s.now⟩ where
  untimed := hrun
  since := Nat.le_refl _
  prompt := fun _ hd => le_due hd
  fresh := by
    intro hreg time hmem
    rcases List.mem_append.mp hmem with hmem | hmem
    · exact h.fresh (hold hreg) time hmem
    · cases List.mem_singleton.mp hmem
      exact he rfl
  reached := by
    intro hreg time hmem
    obtain ⟨err, hpc⟩ := hnone hreg
    show Reached delay time s.now u.pc
    rw [hpc]
    trivial

theorem Inv.detach (h : Inv delay tr s) (hold : s.upgrade.registered = some .old)
    (hrun : Run Handover.step (fun _ a => a ≠ .cancel) upgrade
      ((tr ++ [(Handover.Event.detached, s.now)]).map Prod.fst)
      { s.upgrade with registered := none }) :
    Inv delay (tr ++ [(.detached, s.now)])
      ⟨{ s.upgrade with registered := none }, s.now, s.since⟩ where
  untimed := hrun
  since := h.since
  prompt := h.prompt
  fresh := fun hreg => by cases hreg
  reached := by
    intro _ time hmem
    rcases List.mem_append.mp hmem with hmem | hmem
    · exact absurd hmem (h.fresh hold time)
    · cases List.mem_singleton.mp hmem
      have hsince := h.since
      show Reached delay s.now s.since s.upgrade.pc
      cases s.upgrade.pc with
      | attach =>
        show s.since ≤ s.now + attachRetryInterval + delay
        omega
      | readOps err | pause => exact hsince
      | returned err => trivial

theorem Inv.timer (h : Inv delay tr s) (hpc : s.upgrade.pc = .pause)
    (hrun : Run Handover.step (fun _ a => a ≠ .cancel) upgrade (tr.map Prod.fst)
      { s.upgrade with pc := .attach }) :
    Inv delay tr ⟨{ s.upgrade with pc := .attach }, s.now, s.now⟩ where
  untimed := hrun
  since := Nat.le_refl _
  prompt := fun _ hd => le_due hd
  fresh := h.fresh
  reached := by
    intro hreg time hmem
    have hreached := h.reached hreg time hmem
    have hdue := h.prompt (s.since + attachRetryInterval + delay) (by simp [due, hpc])
    rw [hpc] at hreached
    have hsince : s.since ≤ time := hreached
    show s.now ≤ time + attachRetryInterval + delay
    omega

theorem Inv.act (h : Inv delay tr s) {a : Handover.Action} (ha : a ≠ .cancel)
    (hs : step s (.act a) = some (t, es)) : Inv delay (tr ++ es) t := by
  obtain ⟨hctx, -⟩ := run_told h.untimed
  simp only [step] at hs
  split at hs
  · obtain ⟨⟨u, es'⟩, hu, heq⟩ := Option.map_eq_some_iff.mp hs
    cases heq
    have hrun : Run Handover.step (fun _ a => a ≠ .cancel) upgrade
        ((tr ++ es'.map fun e => (e, s.now)).map Prod.fst) u := by
      have htail := h.untimed.tail ha hu
      simpa [List.map_append, Function.comp_def] using htail
    cases a with
    | detach =>
      simp only [Handover.step] at hu
      split at hu
      · next hold =>
        cases hu
        rw [if_pos rfl]
        exact h.detach hold hrun
      · cases hu
    | attach cause =>
      simp only [Handover.step] at hu
      split at hu
      · next hpc _ =>
        cases hu
        rw [if_neg (by simp [hpc])]
        exact h.begin hrun (by decide) (by simp) (by simp)
      · next owner hpc hreg =>
        cases hu
        rw [if_neg (by simp [hpc])]
        exact h.begin hrun (by decide) id (by simp [hreg])
      · cases hu
    | readOps =>
      simp only [Handover.step, hctx, Bool.or_false] at hu
      split at hu
      · next err hpc =>
        split at hu
        · cases hu
          rw [if_neg (by simp [hpc])]
          exact h.begin hrun (by decide) id fun _ => ⟨_, rfl⟩
        · next hcontended =>
          cases hu
          rw [if_neg (by simp [hpc])]
          refine h.begin hrun (by decide) id fun hreg => ?_
          -- a read that finds the scheduler finds it registered
          have hreg' : s.upgrade.registered = none := hreg
          rw [contended_iff, hreg'] at hcontended
          exact absurd rfl hcontended
      · cases hu
    | timer =>
      simp only [Handover.step] at hu
      split at hu
      · next hpc =>
        cases hu
        rw [if_neg (by simp [hpc])]
        simp only [List.map_nil, List.append_nil] at hrun ⊢
        exact h.timer hpc hrun
      · cases hu
    | ctxDone =>
      simp only [Handover.step, hctx] at hu
      cases (if_neg (by simp)).symm.trans hu
    | cancel => exact absurd rfl ha
  · cases hs

end Steps

theorem start_inv (delay : Nat) : Inv delay [] start where
  untimed := .refl
  since := Nat.le_refl _
  prompt := fun _ hd => le_due hd
  fresh := by simp
  reached := by simp

end K8sSched.Agent.HandoverGap
