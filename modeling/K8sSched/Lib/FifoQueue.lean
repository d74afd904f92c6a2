import Mathlib.Order.Lattice
import Mathlib.Data.List.Basic

/-! # Priority queues that are first-in first-out on ties

A queue is the list of its elements in the order of their insertion. `lowest`
is the element it yields: the least one, and the earliest inserted among those. -/

namespace K8sSched.Lib.FifoQueue

variable {α κ : Type*} [LinearOrder κ]

/-- The least element, the earliest one on ties. -/
def lowest (lt : α → α → Bool) : List α → Option α
  | [] => none
  | x :: xs => match lowest lt xs with
    | none => some x
    | some y => if lt y x then some y else some x

variable {lt lt' : α → α → Bool}

theorem lowest_cons_isSome (x : α) (xs : List α) : (lowest lt (x :: xs)).isSome := by
  simp only [lowest]
  split
  · rfl
  · split <;> rfl

theorem lowest_eq_none {l : List α} : lowest lt l = none ↔ l = [] := by
  cases l with
  | nil => simp [lowest]
  | cons x xs =>
    have h := @lowest_cons_isSome _ lt x xs
    constructor
    · intro hn; rw [hn] at h; cases h
    · intro hl; cases hl

theorem lowest_mem {l : List α} {x : α} (h : lowest lt l = some x) : x ∈ l := by
  induction l with
  | nil => simp [lowest] at h
  | cons y ys ih =>
    simp only [lowest] at h
    split at h
    · simp_all
    · next z hz =>
      split at h
      · exact List.mem_cons_of_mem _ (ih (hz.trans h))
      · simp_all

/-- Only the comparisons between its own elements decide what a queue yields. -/
theorem lowest_congr {l : List α} (h : ∀ x ∈ l, ∀ y ∈ l, lt x y = lt' x y) :
    lowest lt l = lowest lt' l := by
  induction l with
  | nil => rfl
  | cons y ys ih =>
    have ht := ih fun a ha b hb => h a (List.mem_cons_of_mem _ ha) b (List.mem_cons_of_mem _ hb)
    simp only [lowest, ht]
    cases hz : lowest lt' ys with
    | none => rfl
    | some z =>
      have hzy := h z (List.mem_cons_of_mem _ (lowest_mem hz)) y (List.mem_cons_self ..)
      simp only [hzy]

section Keyed

variable {key : α → κ} {l : List α} {x : α}

theorem lowest_le (hlt : ∀ a ∈ l, ∀ b ∈ l, lt a b = decide (key a < key b))
    (h : lowest lt l = some x) : ∀ y ∈ l, key x ≤ key y := by
  induction l generalizing x with
  | nil => simp
  | cons z zs ih =>
    have hlt' : ∀ a ∈ zs, ∀ b ∈ zs, lt a b = decide (key a < key b) := fun a ha b hb =>
      hlt a (List.mem_cons_of_mem _ ha) b (List.mem_cons_of_mem _ hb)
    intro y hy
    simp only [lowest] at h
    split at h
    · next hn =>
      rw [lowest_eq_none] at hn
      subst hn
      simp_all
    · next w hw =>
      have hwz := hlt w (List.mem_cons_of_mem _ (lowest_mem hw)) z (List.mem_cons_self ..)
      have hle := ih hlt' hw
      rw [hwz] at h
      split at h
      · next hc =>
        obtain rfl : w = x := Option.some.inj h
        rcases List.mem_cons.mp hy with rfl | hy
        · exact le_of_lt (of_decide_eq_true hc)
        · exact hle y hy
      · next hc =>
        obtain rfl : z = x := Option.some.inj h
        have hzw : key z ≤ key w := not_lt.mp fun hc' => hc (decide_eq_true hc')
        rcases List.mem_cons.mp hy with rfl | hy
        · exact le_rfl
        · exact le_trans hzw (hle y hy)

/-- What a queue yields ahead of its element `i` was inserted before `i`, or is
strictly less than `i`. -/
theorem lowest_ahead {pre post : List α} {i : α}
    (hlt : ∀ a ∈ pre ++ i :: post, ∀ b ∈ pre ++ i :: post, lt a b = decide (key a < key b))
    (h : lowest lt (pre ++ i :: post) = some x) : x ∈ pre ∨ x = i ∨ key x < key i := by
  induction pre generalizing x with
  | nil =>
    simp only [List.nil_append, lowest] at h hlt
    split at h
    · exact .inr (.inl (Option.some.inj h).symm)
    · next w hw =>
      split at h
      · next hc =>
        obtain rfl : w = x := Option.some.inj h
        rw [hlt w (List.mem_cons_of_mem _ (lowest_mem hw)) i (List.mem_cons_self ..)] at hc
        exact .inr (.inr (of_decide_eq_true hc))
      · exact .inr (.inl (Option.some.inj h).symm)
  | cons z zs ih =>
    simp only [List.cons_append, lowest] at h
    split at h
    · exact .inl (by rw [Option.some.inj h]; exact List.mem_cons_self ..)
    · next w hw =>
      split at h
      · obtain rfl : w = x := Option.some.inj h
        have hlt' : ∀ a ∈ zs ++ i :: post, ∀ b ∈ zs ++ i :: post, lt a b = decide (key a < key b) :=
          fun a ha b hb => hlt a (List.mem_cons_of_mem _ ha) b (List.mem_cons_of_mem _ hb)
        exact (ih hlt' hw).imp_left (List.mem_cons_of_mem _)
      · exact .inl (by rw [Option.some.inj h]; exact List.mem_cons_self ..)

end Keyed

end K8sSched.Lib.FifoQueue
