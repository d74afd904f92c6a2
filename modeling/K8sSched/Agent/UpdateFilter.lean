import K8sSched.Agent.Watcher

/-! # The update filter

`podRelevantFieldsChanged` drops an update in which phase, labels, annotations
and container IDs stay the same. `Resolve` reads more of the pod: through the
`signal` variables of CEL conditions also the QoS class, the restart counts and
the CPU requests and limits. Two versions the filter takes for the same resolve
alike under all policies and conditions exactly when these variables agree or
annotations settle both parameters. -/

namespace K8sSched.Agent.UpdateFilter

open K8sSched.Bpf.Params K8sSched.Agent.Pods K8sSched.Agent.Policies K8sSched.Agent.Watcher

variable {σ : Type}

theorem unchanged_iff {old new : Pod} :
    podRelevantFieldsChanged old new = false ↔
      old.phase = new.phase ∧ old.labels = new.labels ∧ old.annotations = new.annotations ∧
        containerIDs old = containerIDs new := by
  simp [podRelevantFieldsChanged, and_assoc]

/-- Both parameters come from annotations. -/
def FullyAnnotated (pod : Pod) : Prop :=
  0 < parseAnnotationWeight pod.annotations ∧ 0 < parseAnnotationBudget pod.annotations

theorem qosName_injective {a b : QOSClass} (h : a.name = b.name) : a = b := by
  cases a <;> cases b <;> first | rfl | exact absurd h (by decide)

/-! ## What `Resolve` depends on -/

theorem selects_congr (ev : Evaluators σ) (policy : SchedulingPolicy σ) {old new : Pod}
    (hlabels : old.labels = new.labels) (hsignal : signalOf old = signalOf new) :
    selects ev policy old = selects ev policy new := by
  unfold selects podSelectorMatches celConditionPasses
  rw [hlabels, hsignal]

theorem resolve_of_signal (ev : Evaluators σ) (r : Resolver σ) {old new : Pod}
    (hlabels : old.labels = new.labels) (hann : old.annotations = new.annotations)
    (hsignal : signalOf old = signalOf new) : (resolve ev r old).2 = (resolve ev r new).2 := by
  have hmatch : getMatchingPolicies ev r.policies old = getMatchingPolicies ev r.policies new :=
    Multiset.filter_congr fun policy _ => by rw [selects_congr ev policy hlabels hsignal]
  have hqos : old.qosClass = new.qosClass := qosName_injective (congrArg Signal.podQOSClass hsignal)
  show resolveParams ev r.policies old = resolveParams ev r.policies new
  unfold resolveParams
  rw [hmatch, hqos, hann]

theorem resolve_of_annotated (ev : Evaluators σ) (r : Resolver σ) {old new : Pod}
    (hann : old.annotations = new.annotations) (hfull : FullyAnnotated old) :
    (resolve ev r old).2 = (resolve ev r new).2 := by
  show resolveParams ev r.policies old = resolveParams ev r.policies new
  unfold resolveParams overrideWith
  rw [← hann]
  simp only [hfull.1, hfull.2, if_true]

/-! ## Telling two versions apart -/

/-- A condition that holds of the given signal only. -/
noncomputable def onlyFor (signal : Signal) : Evaluators σ where
  selector := fun _ => none
  cel := fun _ s _ => .ok (@decide (s = signal) (Classical.propDecidable _))

/-- The lowest weight and a budget, under a condition. -/
def conditional : SchedulingPolicy σ :=
  { name := "conditional", weight := 1, budgetMicroseconds := 7, celCondition := "signal" }

def withConditional : Resolver σ := addPolicy newResolver conditional

theorem matching_conditional (ev : Evaluators σ) (pod : Pod) :
    getMatchingPolicies ev (withConditional : Resolver σ).policies pod =
      if selects ev conditional pod then {conditional} else 0 := by
  show Multiset.filter _ {conditional} = _
  split
  · next h => exact Multiset.filter_eq_self.mpr (by simpa using h)
  · next h => exact Multiset.filter_eq_nil.mpr (by simpa using h)

theorem merged_conditional :
    Multiset.foldl merge (0, 0) {(conditional : SchedulingPolicy σ)} = (1, 7000) := by
  show (mergeField (1 : BitVec 32) ((1 : BitVec 32).signExtend 64) 0,
    mergeField (7 : BitVec 64) ((7 : BitVec 64) * 1000) 0) = ((1 : U64), (7000 : U64))
  decide

theorem selects_conditional (signal : Signal) (pod : Pod) :
    selects (onlyFor signal) (conditional : SchedulingPolicy σ) pod = true ↔ signalOf pod = signal := by
  simp [selects, podSelectorMatches, celConditionPasses, conditional, onlyFor]

theorem resolve_conditional_of_ne {signal : Signal} {pod : Pod} (h : signalOf pod ≠ signal) :
    (resolve (onlyFor signal) (withConditional : Resolver σ) pod).2 =
      ⟨overrideWith (parseAnnotationWeight pod.annotations) (qosDefaultWeight pod.qosClass),
        overrideWith (parseAnnotationBudget pod.annotations) 0⟩ := by
  show resolveParams _ _ pod = _
  unfold resolveParams
  rw [matching_conditional, if_neg (mt (selects_conditional signal pod).mp h)]
  rfl

theorem resolve_conditional (pod : Pod) :
    (resolve (onlyFor (signalOf pod)) (withConditional : Resolver σ) pod).2 =
      ⟨overrideWith (parseAnnotationWeight pod.annotations) 1,
        overrideWith (parseAnnotationBudget pod.annotations) 7000⟩ := by
  show resolveParams _ _ pod = _
  unfold resolveParams
  rw [matching_conditional, if_pos ((selects_conditional _ pod).mpr rfl),
    merged_conditional]
  rfl

theorem qosDefaultWeight_ne_one (qos : QOSClass) : qosDefaultWeight qos ≠ 1 := by
  cases qos <;> decide

/-- For two versions of a pod between which the filter sees no change, `Resolve`
returns the same under every set of policies and every CEL evaluation exactly
when the versions agree on the signal variables or the annotations set both the
weight and the budget. -/
theorem filter_sound_iff {old new : Pod}
    (hskip : podRelevantFieldsChanged old new = false) :
    (∀ (ev : Evaluators σ) (r : Resolver σ), (resolve ev r old).2 = (resolve ev r new).2) ↔
      signalOf old = signalOf new ∨ FullyAnnotated old := by
  obtain ⟨-, hlabels, hann, -⟩ := unchanged_iff.mp hskip
  constructor
  · intro hsame
    by_contra hnot
    obtain ⟨hsignal, hfull⟩ := not_or.mp hnot
    -- the policy applies to the old version and not to the new one
    have heq := hsame (onlyFor (signalOf old)) withConditional
    rw [resolve_conditional, resolve_conditional_of_ne (Ne.symm hsignal), ← hann] at heq
    obtain ⟨hweight, hbudget⟩ := TaskParams.mk.inj heq
    unfold overrideWith at hweight hbudget
    refine hfull ⟨?_, ?_⟩
    · by_contra hw
      rw [if_neg hw, if_neg hw] at hweight
      exact qosDefaultWeight_ne_one _ hweight.symm
    · by_contra hb
      rw [if_neg hb, if_neg hb] at hbudget
      exact absurd hbudget (by decide)
  · intro hcond ev r
    rcases hcond with hsignal | hfull
    · exact resolve_of_signal ev r hlabels hann hsignal
    · exact resolve_of_annotated ev r hann hfull

/-- A policy for pods that have not restarted often. -/
def stable : SchedulingPolicy Unit :=
  { name := "stable", weight := 9000, celCondition := "signal.podRestartCount < 3" }

/-- Reads that one condition. -/
def restartsBelowThree : Evaluators Unit :=
  ⟨fun _ => none, fun _ signal _ => .ok (decide (signal.podRestartCount < 3))⟩

def restarted (counts : List (BitVec 32)) : Pod :=
  { web with containerStatuses := counts.map fun n => ⟨"containerd://c1", n⟩ }

theorem filter_sound_iff_reordered :
    podRelevantFieldsChanged (restarted [1, 2]) (restarted [2, 1]) = false ∧
      (resolve restartsBelowThree (addPolicy newResolver stable) (restarted [1, 2])).2 =
        (resolve restartsBelowThree (addPolicy newResolver stable) (restarted [2, 1])).2 :=
  ⟨by decide, (filter_sound_iff (by decide)).mpr (.inl rfl) _ _⟩

/-- The restart count of a container grows, the policy no longer applies, and
the filter lets the update pass by. -/
theorem restarts_filtered_out :
    (restarted [2]).phase = .running ∧ (restarted [5]).uid = (restarted [2]).uid ∧
      podRelevantFieldsChanged (restarted [2]) (restarted [5]) = false ∧
      (resolve restartsBelowThree (addPolicy newResolver stable) (restarted [2])).2 = ⟨9000, 0⟩ ∧
      (resolve restartsBelowThree (addPolicy newResolver stable) (restarted [5])).2 = ⟨1000, 0⟩ := by
  decide

end K8sSched.Agent.UpdateFilter
