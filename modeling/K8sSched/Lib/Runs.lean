import Mathlib.Data.List.Induction

/-! # Runs of a partial step function

A system is a function `step : σ → α → Option (σ × List ε)`: in state `s` the
action `a` is refused (`none`) or leads to a new state and emits events. `Run`
is the relation of its finite runs, restricted to steps that meet a condition
`ok`; since every prefix of a run is a run, a statement about all `Run`s is a
statement about all states reached. `exec` computes one run from its actions,
`AllSteps` and `AllStates` say that every step taken on it, or every state
visited, meets a condition. -/

namespace K8sSched.Lib.Runs

variable {σ α ε : Type*} {step : σ → α → Option (σ × List ε)} {ok : σ → α → Prop}

/-- From `s`, through steps that all meet `ok`, the system reaches the last
argument and emits the listed events, oldest first. -/
inductive Run (step : σ → α → Option (σ × List ε)) (ok : σ → α → Prop) (s : σ) :
    List ε → σ → Prop
  | refl : Run step ok s [] s
  | tail {t u : σ} {tr es : List ε} {a : α} :
      Run step ok s tr t → ok t a → step t a = some (u, es) → Run step ok s (tr ++ es) u

theorem Run.trans {s t u : σ} {tr tr' : List ε} (h : Run step ok s tr t)
    (h' : Run step ok t tr' u) : Run step ok s (tr ++ tr') u := by
  induction h' with
  | refl => simpa using h
  | tail _ hok hs ih => rw [← List.append_assoc]; exact .tail ih hok hs

theorem Run.mono {ok' : σ → α → Prop} (himp : ∀ s a, ok s a → ok' s a) {s t : σ} {tr : List ε}
    (h : Run step ok s tr t) : Run step ok' s tr t := by
  induction h with
  | refl => exact .refl
  | tail _ hok hs ih => exact .tail ih (himp _ _ hok) hs

/-- What holds at the start and is kept by every step that meets the condition
holds in every state reached, together with the events emitted so far. -/
theorem Run.invariant {I : List ε → σ → Prop} {s t : σ} {tr : List ε}
    (h : Run step ok s tr t) (h0 : I [] s)
    (hstep : ∀ tr t a u es, I tr t → ok t a → step t a = some (u, es) → I (tr ++ es) u) :
    I tr t := by
  induction h with
  | refl => exact h0
  | tail _ hok hs ih => exact hstep _ _ _ _ _ ih hok hs

/-- A run of one system is a run of another along a map of states and events,
as long as an invariant of the other lets the map commute with the steps. -/
theorem Run.lift {σ' ε' : Type*} {step' : σ' → α → Option (σ' × List ε')}
    {ok' : σ' → α → Prop} {I : List ε' → σ' → Prop} (f : σ' → σ) (g : List ε' → List ε)
    (hg : ∀ l₁ l₂, g (l₁ ++ l₂) = g l₁ ++ g l₂) (hg0 : g [] = [])
    (hsim : ∀ tr s a, I tr s → step (f s) a = (step' s a).map fun r => (f r.1, g r.2))
    (hok : ∀ tr s a, I tr s → ok (f s) a → ok' s a)
    (hinv : ∀ tr s a u es, I tr s → ok' s a → step' s a = some (u, es) → I (tr ++ es) u)
    {s : σ'} (h0 : I [] s) {tr : List ε} {t : σ} (h : Run step ok (f s) tr t) :
    ∃ tr' t', Run step' ok' s tr' t' ∧ I tr' t' ∧ t = f t' ∧ tr = g tr' := by
  induction h with
  | refl => exact ⟨[], s, .refl, h0, rfl, hg0.symm⟩
  | tail _ hoka hstep ih =>
    obtain ⟨tr', t', hrun, hI, rfl, rfl⟩ := ih
    rw [hsim _ _ _ hI] at hstep
    obtain ⟨⟨u', es'⟩, hstep', heq⟩ := Option.map_eq_some_iff.mp hstep
    obtain ⟨rfl, rfl⟩ := Prod.mk.inj heq
    have hok' := hok _ _ _ hI hoka
    exact ⟨tr' ++ es', u', hrun.tail hok' hstep', hinv _ _ _ _ _ hI hok' hstep', rfl, (hg _ _).symm⟩

/-- The run given by a list of actions. -/
def exec (step : σ → α → Option (σ × List ε)) : σ → List α → Option (σ × List ε)
  | s, [] => some (s, [])
  | s, a :: as => (step s a).bind fun r => (exec step r.1 as).map fun q => (q.1, r.2 ++ q.2)

/-- Every step taken meets `ok`; the run ends where an action is refused. -/
def AllSteps (step : σ → α → Option (σ × List ε)) (ok : σ → α → Prop) : σ → List α → Prop
  | _, [] => True
  | s, a :: as => match step s a with
    | none => True
    | some r => ok s a ∧ AllSteps step ok r.1 as

/-- Every state visited meets `P`; the run ends where an action is refused. -/
def AllStates (step : σ → α → Option (σ × List ε)) (P : σ → Prop) : σ → List α → Prop
  | s, [] => P s
  | s, a :: as => P s ∧ match step s a with
    | none => True
    | some r => AllStates step P r.1 as

instance AllSteps.decidable [∀ s a, Decidable (ok s a)] :
    ∀ (s : σ) (as : List α), Decidable (AllSteps step ok s as)
  | _, [] => isTrue trivial
  | s, a :: as =>
    match hs : step s a with
    | none => isTrue (by simp only [AllSteps, hs])
    | some r =>
      have := AllSteps.decidable r.1 as
      decidable_of_iff (ok s a ∧ AllSteps step ok r.1 as) (by simp only [AllSteps, hs])

theorem Run.of_exec {s t : σ} {as : List α} {tr : List ε} (hok : AllSteps step ok s as)
    (h : exec step s as = some (t, tr)) : Run step ok s tr t := by
  induction as generalizing s tr with
  | nil =>
    simp only [exec, Option.some.injEq, Prod.mk.injEq] at h
    obtain ⟨rfl, rfl⟩ := h
    exact .refl
  | cons a as ih =>
    simp only [exec] at h
    obtain ⟨⟨u, es⟩, hs, hr⟩ := Option.bind_eq_some_iff.mp h
    obtain ⟨⟨v, tr'⟩, he, heq⟩ := Option.map_eq_some_iff.mp hr
    obtain ⟨rfl, rfl⟩ := Prod.mk.inj heq
    simp only [AllSteps, hs] at hok
    have hfirst : Run step ok s ([] ++ es) u := .tail .refl hok.1 hs
    exact hfirst.trans (ih hok.2 he)

/-- A run on concrete data: that all its steps are taken and meet `ok` is
decided by evaluation. -/
theorem Run.of_isSome {s : σ} (as : List α) (hok : AllSteps step ok s as)
    (h : (exec step s as).isSome) :
    Run step ok s ((exec step s as).get h).2 ((exec step s as).get h).1 :=
  Run.of_exec hok (Option.some_get h).symm

theorem exec_append (s : σ) (as bs : List α) :
    exec step s (as ++ bs) =
      (exec step s as).bind fun r => (exec step r.1 bs).map fun q => (q.1, r.2 ++ q.2) := by
  induction as generalizing s with
  | nil => simp [exec]
  | cons a as ih =>
    simp only [List.cons_append, exec, ih]
    cases step s a with
    | none => rfl
    | some r =>
      show ((exec step r.1 as).bind _).map _ = ((exec step r.1 as).map _).bind _
      cases exec step r.1 as with
      | none => rfl
      | some q => simp [Function.comp_def]

theorem exec_cons_of_eq {s t u : σ} {a : α} {as : List α} {es tr : List ε}
    (h : step s a = some (t, es)) (h' : exec step t as = some (u, tr)) :
    exec step s (a :: as) = some (u, es ++ tr) := by
  simp [exec, h, h']

theorem exec_append_of_eq {s t u : σ} {as bs : List α} {tr tr' : List ε}
    (h : exec step s as = some (t, tr)) (h' : exec step t bs = some (u, tr')) :
    exec step s (as ++ bs) = some (u, tr ++ tr') := by
  simp [exec_append, h, h']

theorem allSteps_append_of_eq {s t : σ} {as bs : List α} {tr : List ε}
    (h : AllSteps step ok s as) (he : exec step s as = some (t, tr)) (h' : AllSteps step ok t bs) :
    AllSteps step ok s (as ++ bs) := by
  induction as generalizing s tr with
  | nil =>
    simp only [exec, Option.some.injEq, Prod.mk.injEq] at he
    rw [List.nil_append, he.1]
    exact h'
  | cons a as ih =>
    simp only [exec] at he
    obtain ⟨⟨u, es⟩, hs, hr⟩ := Option.bind_eq_some_iff.mp he
    obtain ⟨⟨v, tr'⟩, htail, heq⟩ := Option.map_eq_some_iff.mp hr
    obtain ⟨rfl, rfl⟩ := Prod.mk.inj heq
    simp only [AllSteps, hs] at h
    simp only [List.cons_append, AllSteps, hs]
    exact ⟨h.1, ih h.2 htail⟩

theorem allSteps_cons_of_eq {s t : σ} {a : α} {as : List α} {es : List ε}
    (h : step s a = some (t, es)) (hok : ok s a) (h' : AllSteps step ok t as) :
    AllSteps step ok s (a :: as) := by
  simp only [AllSteps, h]
  exact ⟨hok, h'⟩

theorem allSteps_of_forall (s : σ) {as : List α} (h : ∀ a ∈ as, ∀ s, ok s a) :
    AllSteps step ok s as := by
  induction as generalizing s with
  | nil => trivial
  | cons a as ih =>
    simp only [AllSteps]
    split
    · trivial
    · exact ⟨h a List.mem_cons_self s, ih _ fun b hb => h b (List.mem_cons_of_mem a hb)⟩

/-- Under an invariant of the steps that meet one condition, they meet another. -/
theorem AllSteps.imp {I : σ → Prop} {ok' : σ → α → Prop}
    (hinv : ∀ s a t es, I s → ok s a → step s a = some (t, es) → I t)
    (himp : ∀ s a, I s → ok s a → ok' s a) {s : σ} (hI : I s) {as : List α}
    (h : AllSteps step ok s as) : AllSteps step ok' s as := by
  induction as generalizing s with
  | nil => trivial
  | cons a as ih =>
    simp only [AllSteps] at h ⊢
    cases hs : step s a with
    | none => trivial
    | some r =>
      simp only [hs] at h
      exact ⟨himp s a hI h.1, ih (hinv s a r.1 r.2 hI h.1 hs) h.2⟩

theorem AllStates.mono {P Q : σ → Prop} (himp : ∀ s, P s → Q s) {s : σ} {as : List α}
    (h : AllStates step P s as) : AllStates step Q s as := by
  induction as generalizing s with
  | nil => exact himp s h
  | cons a as ih =>
    simp only [AllStates] at h ⊢
    refine ⟨himp s h.1, ?_⟩
    cases hs : step s a with
    | none => trivial
    | some r =>
      simp only [hs] at h
      exact ih h.2

/-- Where an invariant lets a map of states and events commute with the steps
that meet `ok`, it commutes with the runs whose steps all do. -/
theorem exec_map {σ' ε' : Type*} {step' : σ' → α → Option (σ' × List ε')} {I : σ' → Prop}
    {ok' : σ' → α → Prop} (f : σ' → σ) (g : ε' → ε)
    (hsim : ∀ s a, I s → ((step' s a).isSome → ok' s a) →
      step (f s) a = (step' s a).map fun r => (f r.1, r.2.map g))
    (hinv : ∀ s a u es, I s → ok' s a → step' s a = some (u, es) → I u)
    {s : σ'} (hI : I s) {as : List α} (hok : AllSteps step' ok' s as) :
    exec step (f s) as = (exec step' s as).map fun r => (f r.1, r.2.map g) := by
  induction as generalizing s with
  | nil => rfl
  | cons a as ih =>
    simp only [AllSteps] at hok
    cases hs : step' s a with
    | none => simp [exec, hs, hsim s a hI (by simp [hs])]
    | some r =>
      obtain ⟨u, es⟩ := r
      simp only [hs] at hok
      have hu := ih (hinv s a u es hI hok.1 hs) hok.2
      simp only [exec, hs, hsim s a hI fun _ => hok.1, Option.map_some, Option.bind_some, hu]
      cases exec step' u as with
      | none => rfl
      | some q => simp

/-- If, under an invariant, a step from a good state leads to a good state
exactly when it meets `ok`, then a whole run visits good states only exactly
when all its steps meet `ok`. The steps can be assumed to meet a condition
`pre` besides. -/
theorem allStates_iff_allSteps_of {I P : σ → Prop} {pre : σ → α → Prop}
    (hinv : ∀ s a t es, I s → pre s a → step s a = some (t, es) → I t)
    (hgood : ∀ s a t es, I s → P s → pre s a → step s a = some (t, es) → (P t ↔ ok s a))
    {s : σ} (hI : I s) (hP : P s) {as : List α} (hpre : AllSteps step pre s as) :
    AllStates step P s as ↔ AllSteps step ok s as := by
  induction as generalizing s with
  | nil => simp [AllStates, AllSteps, hP]
  | cons a as ih =>
    simp only [AllSteps] at hpre
    simp only [AllStates, AllSteps, hP, true_and]
    cases hs : step s a with
    | none => simp
    | some r =>
      simp only [hs] at hpre
      have hg := hgood s a r.1 r.2 hI hP hpre.1 hs
      have hIt := hinv s a r.1 r.2 hI hpre.1 hs
      constructor
      · intro h
        have hPt : P r.1 := by
          cases as with
          | nil => exact h
          | cons => exact h.1
        exact ⟨hg.mp hPt, (ih hIt hPt hpre.2).mp h⟩
      · rintro ⟨hok, h⟩
        exact (ih hIt (hg.mpr hok) hpre.2).mpr h

theorem allStates_iff_allSteps {I P : σ → Prop}
    (hinv : ∀ s a t es, I s → step s a = some (t, es) → I t)
    (hgood : ∀ s a t es, I s → P s → step s a = some (t, es) → (P t ↔ ok s a))
    {s : σ} (hI : I s) (hP : P s) (as : List α) :
    AllStates step P s as ↔ AllSteps step ok s as :=
  allStates_iff_allSteps_of (fun s a t es hI _ => hinv s a t es hI)
    (fun s a t es hI hP _ => hgood s a t es hI hP) hI hP
    (allSteps_of_forall s fun _ _ _ => trivial)

/-! ## Keeping the events -/

/-- The system with the events of the run so far as part of its state. -/
def logged (step : σ → α → Option (σ × List ε)) (x : σ × List ε) (a : α) :
    Option ((σ × List ε) × List ε) :=
  (step x.1 a).map fun r => ((r.1, x.2 ++ r.2), r.2)

theorem logged_eq_some {x y : σ × List ε} {a : α} {es : List ε}
    (h : logged step x a = some (y, es)) : step x.1 a = some (y.1, es) ∧ y.2 = x.2 ++ es := by
  obtain ⟨r, hr, heq⟩ := Option.map_eq_some_iff.mp h
  cases heq
  exact ⟨hr, rfl⟩

theorem logged_of_eq {s t : σ} {a : α} {es : List ε} (log : List ε)
    (h : step s a = some (t, es)) : logged step (s, log) a = some ((t, log ++ es), es) := by
  rw [logged, h]
  rfl

/-! ## What has happened since -/

/-- An event of one kind occurred, and none of the other kind after it. -/
def Since (p q : ε → Prop) (tr : List ε) : Prop :=
  ∃ pre e post, tr = pre ++ e :: post ∧ p e ∧ ∀ x ∈ post, ¬ q x

theorem not_since_nil (p q : ε → Prop) : ¬ Since p q [] := by
  rintro ⟨pre, e, post, heq, -⟩
  simp at heq

theorem since_concat {p q : ε → Prop} (tr : List ε) (e : ε) :
    Since p q (tr ++ [e]) ↔ p e ∨ ¬ q e ∧ Since p q tr := by
  constructor
  · rintro ⟨pre, x, post, heq, hx, hpost⟩
    rcases List.eq_nil_or_concat post with rfl | ⟨post, y, rfl⟩
    · obtain ⟨-, hlast⟩ := List.append_inj' heq rfl
      cases hlast
      exact .inl hx
    · have hsplit : tr ++ [e] = (pre ++ x :: post) ++ [y] := by rw [heq]; simp
      obtain ⟨rfl, hlast⟩ := List.append_inj' hsplit rfl
      cases hlast
      exact .inr ⟨hpost e (by simp), pre, x, post, rfl, hx, fun z hz => hpost z (by simp [hz])⟩
  · rintro (he | ⟨hq, pre, x, post, rfl, hx, hpost⟩)
    · exact ⟨tr, e, [], rfl, he, by simp⟩
    · refine ⟨pre, x, post ++ [e], by simp, hx, fun z hz => ?_⟩
      rcases List.mem_append.mp hz with hz | hz
      · exact hpost z hz
      · rwa [List.mem_singleton.mp hz]

theorem since_iff_foldl {p q : ε → Prop} [DecidablePred p] [DecidablePred q] (tr : List ε) :
    tr.foldl (fun b e => decide (p e) || !decide (q e) && b) false = true ↔ Since p q tr := by
  induction tr using List.reverseRecOn with
  | nil => exact iff_of_false (by simp) (not_since_nil p q)
  | append_singleton tr e ih =>
    rw [List.foldl_append, since_concat, ← ih]
    simp

instance {p q : ε → Prop} [DecidablePred p] [DecidablePred q] (tr : List ε) :
    Decidable (Since p q tr) :=
  decidable_of_iff _ (since_iff_foldl tr)

end K8sSched.Lib.Runs
