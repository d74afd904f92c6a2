import Mathlib.Order.Nat

/-! # Stamps of a counter

Numbers drawn from a counter and kept in places, each number in one place at
most: what drawing a new one, moving one and dropping some leave of that. -/

namespace K8sSched.Lib.Stamps

variable {π : Type*} {held held' : π → Option Nat} {c : Nat}

/-- No number is ahead of the counter, and none is in two places. -/
structure Distinct (held : π → Option Nat) (c : Nat) : Prop where
  le : ∀ p n, held p = some n → n ≤ c
  unique : ∀ p q n, held p = some n → held q = some n → p = q

theorem Distinct.drop (h : Distinct held c) (hsub : ∀ p n, held' p = some n → held p = some n) :
    Distinct held' c where
  le := fun p n hp => h.le p n (hsub p n hp)
  unique := fun p q n hp hq => h.unique p q n (hsub p n hp) (hsub q n hq)

theorem Distinct.draw (h : Distinct held c) (p₀ : π) (hnew : ∀ n, held' p₀ = some n → n = c + 1)
    (hsub : ∀ p, p ≠ p₀ → ∀ n, held' p = some n → held p = some n) :
    Distinct held' (c + 1) := by
  have hold : ∀ p, p ≠ p₀ → ∀ n, held' p = some n → n ≤ c := fun p hp n hn =>
    h.le p n (hsub p hp n hn)
  refine ⟨fun p n hn => ?_, fun p q n hp hq => ?_⟩
  · by_cases hp : p = p₀
    · rw [hp] at hn
      exact (hnew n hn).le
    · exact (hold p hp n hn).trans (Nat.le_succ c)
  · by_cases hp₀ : p = p₀
    · by_cases hq₀ : q = p₀
      · rw [hp₀, hq₀]
      · rw [hp₀] at hp
        have := hold q hq₀ n hq
        have := hnew n hp
        omega
    · by_cases hq₀ : q = p₀
      · rw [hq₀] at hq
        have := hold p hp₀ n hp
        have := hnew n hq
        omega
      · exact h.unique p q n (hsub p hp₀ n hp) (hsub q hq₀ n hq)

theorem Distinct.move (h : Distinct held c) (p₀ q₀ : π) (hleft : held' p₀ = none)
    (hmoved : ∀ n, held' q₀ = some n → held p₀ = some n)
    (hsub : ∀ p, p ≠ q₀ → ∀ n, held' p = some n → held p = some n) : Distinct held' c := by
  -- a number in the new place was in the one that is empty now
  have hother : ∀ p, p ≠ q₀ → ∀ n, held' p = some n → held' q₀ ≠ some n := by
    intro p hp n hn hq
    rw [h.unique p p₀ n (hsub p hp n hn) (hmoved n hq), hleft] at hn
    cases hn
  refine ⟨fun p n hn => ?_, fun p q n hp hq => ?_⟩
  · by_cases hp : p = q₀
    · rw [hp] at hn
      exact h.le p₀ n (hmoved n hn)
    · exact h.le p n (hsub p hp n hn)
  · by_cases hp₀ : p = q₀
    · by_cases hq₀ : q = q₀
      · rw [hp₀, hq₀]
      · exact absurd (hp₀ ▸ hp) (hother q hq₀ n hq)
    · by_cases hq₀ : q = q₀
      · exact absurd (hq₀ ▸ hq) (hother p hp₀ n hp)
      · exact h.unique p q n (hsub p hp₀ n hp) (hsub q hq₀ n hq)

end K8sSched.Lib.Stamps
