import K8sSched.Lib.Runs

/-! # Fair rounds

In a round every actor takes a step or is at some moment unable to. If from each
state one actor has the next step towards a goal, no step of another leads away
from it and only its own step keeps it from being the next, then the goal is
reached within as many rounds as it is steps away. -/

namespace K8sSched.Lib.FairRounds
open K8sSched.Lib.Runs

variable {σ α ε ι : Type*}

section

variable (step : σ → α → Option (σ × List ε)) (actor : α → Option ι)

/-- The actor can take a step. -/
def Enabled (s : σ) (i : ι) : Prop := ∃ a, actor a = some i ∧ (step s a).isSome

/-- The actor takes one of the steps, or is at some moment unable to. -/
def Fair (i : ι) : σ → List α → Prop
  | s, [] => ¬ Enabled step actor s i
  | s, a :: as => ¬ Enabled step actor s i ∨ actor a = some i ∨
      ∃ t es, step s a = some (t, es) ∧ Fair i t as

/-- One fair round after another. -/
def Rounds : σ → List (List α) → Prop
  | _, [] => True
  | s, as :: rounds => (∀ i, Fair step actor i s as) ∧
      ∀ t tr, exec step s as = some (t, tr) → Rounds t rounds

/-- `ahead s n i` says that the goal is `n` steps away in `s`, and that the next of
them is the actor's. -/
structure Leads (goal : ε → Prop) (ahead : σ → Nat → ι → Prop) : Prop where
  pos : ∀ {s n i}, ahead s n i → 0 < n
  enabled : ∀ {s n i}, ahead s n i → Enabled step actor s i
  step : ∀ {s n i a t es}, ahead s n i → step s a = some (t, es) →
    (∃ e ∈ es, goal e) ∨ (∃ m < n, ∃ j, ahead t m j) ∨ actor a ≠ some i ∧ ahead t n i

end

section

variable {step : σ → α → Option (σ × List ε)} {actor : α → Option ι} {goal : ε → Prop}
  {ahead : σ → Nat → ι → Prop} {s t : σ} {n : Nat} {i : ι} {as : List α} {tr : List ε}

theorem exec_cons_eq_some {a : α} (h : exec step s (a :: as) = some (t, tr)) :
    ∃ u es tr', step s a = some (u, es) ∧ exec step u as = some (t, tr') ∧ tr = es ++ tr' := by
  obtain ⟨⟨u, es⟩, hstep, h⟩ := Option.bind_eq_some_iff.mp h
  obtain ⟨⟨t', tr'⟩, hrest, heq⟩ := Option.map_eq_some_iff.mp h
  cases heq
  exact ⟨u, es, tr', hstep, hrest, rfl⟩

theorem exec_append_eq_some {bs : List α} (h : exec step s (as ++ bs) = some (t, tr)) :
    ∃ u tr₁ tr₂, exec step s as = some (u, tr₁) ∧ exec step u bs = some (t, tr₂) ∧
      tr = tr₁ ++ tr₂ := by
  rw [exec_append] at h
  obtain ⟨⟨u, tr₁⟩, hfirst, h⟩ := Option.bind_eq_some_iff.mp h
  obtain ⟨⟨t', tr₂⟩, hrest, heq⟩ := Option.map_eq_some_iff.mp h
  cases heq
  exact ⟨u, tr₁, tr₂, hfirst, hrest, rfl⟩

/-- No steps lead away from the goal. -/
theorem Leads.run (h : Leads step actor goal ahead) (hn : ahead s n i)
    (hexec : exec step s as = some (t, tr)) :
    (∃ e ∈ tr, goal e) ∨ ∃ m ≤ n, ∃ j, ahead t m j := by
  induction as generalizing s n i tr with
  | nil =>
    cases hexec
    exact .inr ⟨n, Nat.le_refl n, i, hn⟩
  | cons a as ih =>
    obtain ⟨u, es, tr', hstep, hrest, rfl⟩ := exec_cons_eq_some hexec
    have hlater : ∀ m ≤ n, ∀ j, ahead u m j →
        (∃ e ∈ es ++ tr', goal e) ∨ ∃ m ≤ n, ∃ j, ahead t m j := by
      intro m hm j hj
      rcases ih hj hrest with ⟨e, he, hgoal⟩ | ⟨k, hk, hahead⟩
      · exact .inl ⟨e, List.mem_append_right _ he, hgoal⟩
      · exact .inr ⟨k, Nat.le_trans hk hm, hahead⟩
    rcases h.step hn hstep with ⟨e, he, hgoal⟩ | ⟨m, hm, j, hj⟩ | ⟨-, hi⟩
    · exact .inl ⟨e, List.mem_append_left _ he, hgoal⟩
    · exact hlater m (Nat.le_of_lt hm) j hj
    · exact hlater n (Nat.le_refl n) i hi

/-- A round that is fair to the next actor leads nearer to the goal. -/
theorem Leads.round (h : Leads step actor goal ahead) (hn : ahead s n i)
    (hfair : Fair step actor i s as) (hexec : exec step s as = some (t, tr)) :
    (∃ e ∈ tr, goal e) ∨ ∃ m < n, ∃ j, ahead t m j := by
  induction as generalizing s tr with
  | nil => exact absurd (h.enabled hn) hfair
  | cons a as ih =>
    obtain ⟨u, es, tr', hstep, hrest, rfl⟩ := exec_cons_eq_some hexec
    rcases h.step hn hstep with ⟨e, he, hgoal⟩ | ⟨m, hm, j, hj⟩ | ⟨hother, hi⟩
    · exact .inl ⟨e, List.mem_append_left _ he, hgoal⟩
    · rcases h.run hj hrest with ⟨e, he, hgoal⟩ | ⟨k, hk, hahead⟩
      · exact .inl ⟨e, List.mem_append_right _ he, hgoal⟩
      · exact .inr ⟨k, Nat.lt_of_le_of_lt hk hm, hahead⟩
    · -- the actor is still to come, so the rest of the round is fair to it
      rcases hfair with hnot | hself | ⟨u', es', hstep', hfair⟩
      · exact absurd (h.enabled hn) hnot
      · exact absurd hself hother
      · rw [hstep] at hstep'
        cases hstep'
        rcases ih hi hfair hrest with ⟨e, he, hgoal⟩ | hahead
        · exact .inl ⟨e, List.mem_append_right _ he, hgoal⟩
        · exact .inr hahead

theorem Leads.rounds (h : Leads step actor goal ahead) {rounds : List (List α)}
    (hn : ahead s n i) (hlen : n ≤ rounds.length) (hfair : Rounds step actor s rounds)
    (hexec : exec step s rounds.flatten = some (t, tr)) : ∃ e ∈ tr, goal e := by
  induction rounds generalizing s n i tr with
  | nil => exact absurd (h.pos hn) (by simpa using hlen)
  | cons as rounds ih =>
    obtain ⟨u, tr₁, tr₂, hfirst, hrest, rfl⟩ := exec_append_eq_some hexec
    rcases h.round hn (hfair.1 i) hfirst with ⟨e, he, hgoal⟩ | ⟨m, hm, j, hj⟩
    · exact ⟨e, List.mem_append_left _ he, hgoal⟩
    · have hlen' : m ≤ rounds.length := by
        rw [List.length_cons] at hlen
        omega
      obtain ⟨e, he, hgoal⟩ := ih hj hlen' (hfair.2 u tr₁ hfirst) hrest
      exact ⟨e, List.mem_append_right _ he, hgoal⟩

end

end K8sSched.Lib.FairRounds
