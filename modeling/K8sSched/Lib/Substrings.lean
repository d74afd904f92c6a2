import Mathlib.Data.List.Infix

/-! # Parts of joined lists

What occurs in lists joined by a separator that it does not contain occurs in one
of them; and what is known of the place of an element from the fact that it does
not occur further on. -/

namespace K8sSched.Lib.Substrings

variable {α : Type*} {x : α} {m a b : List α}

theorem infix_or_infix (hx : x ∉ m) (h : m <:+: a ++ x :: b) : m <:+: a ∨ m <:+: b := by
  obtain ⟨s, t, heq⟩ := h
  rcases List.append_eq_append_iff.mp heq with ⟨c, rfl, -⟩ | ⟨c, hsm, hxb⟩
  · exact .inl ⟨s, c, rfl⟩
  cases c with
  | nil =>
    rw [List.append_nil] at hsm
    exact .inl ⟨s, [], by rw [List.append_nil, hsm]⟩
  | cons y c =>
    obtain ⟨rfl, rfl⟩ := List.cons.inj hxb
    rcases List.append_eq_append_iff.mp hsm with ⟨d, -, rfl⟩ | ⟨d, rfl, hd⟩
    · exact absurd (by simp) hx
    cases d with
    | nil =>
      rw [List.nil_append] at hd
      exact absurd (by simp [← hd]) hx
    | cons y d =>
      obtain ⟨rfl, rfl⟩ := List.cons.inj hd
      exact .inr ⟨d, t, rfl⟩

theorem exists_infix_of_intercalate (hx : x ∉ m) (hm : m ≠ []) {ls : List (List α)}
    (h : m <:+: [x].intercalate ls) : ∃ l ∈ ls, m <:+: l := by
  induction ls with
  | nil => exact absurd (List.infix_nil.mp h) hm
  | cons l ls ih =>
    cases ls with
    | nil => exact ⟨l, List.mem_cons_self, by simpa using h⟩
    | cons l' ls =>
      rw [List.intercalate_cons_cons, List.append_assoc, List.singleton_append] at h
      rcases infix_or_infix hx h with h | h
      · exact ⟨l, List.mem_cons_self, h⟩
      · obtain ⟨l₀, hl₀, h⟩ := ih h
        exact ⟨l₀, List.mem_cons_of_mem l hl₀, h⟩

theorem infix_intercalate (sep : List α) {l : List α} {ls : List (List α)} (h : l ∈ ls) :
    l <:+: sep.intercalate ls := by
  induction ls with
  | nil => cases h
  | cons l' ls ih =>
    by_cases hls : ls = []
    · subst hls
      rw [List.mem_singleton.mp h]
      simp
    · rw [List.intercalate_cons_of_ne_nil hls]
      rcases List.mem_cons.mp h with rfl | h
      · rw [List.append_assoc]
        exact List.infix_append_left
      · exact (ih h).trans List.infix_append_right

theorem prefix_intercalate (sep l : List α) (ls : List (List α)) :
    l <+: sep.intercalate (l :: ls) := by
  by_cases hls : ls = []
  · subst hls
    simp
  · rw [List.intercalate_cons_of_ne_nil hls, List.append_assoc]
    exact List.prefix_append l _

theorem suffix_intercalate (sep l : List α) (ls : List (List α)) :
    l <:+ sep.intercalate (ls ++ [l]) := by
  induction ls with
  | nil => simp
  | cons l' ls ih =>
    rw [List.cons_append, List.intercalate_cons_of_ne_nil (by simp)]
    exact ih.trans (List.suffix_append _ _)

/-- Lists each followed by the separator. -/
theorem flatten_terminated {ls : List (List α)} (h : ls ≠ []) :
    (ls.map (· ++ [x])).flatten = [x].intercalate ls ++ [x] := by
  induction ls with
  | nil => exact absurd rfl h
  | cons l ls ih =>
    by_cases hls : ls = []
    · subst hls
      simp
    · rw [List.map_cons, List.flatten_cons, ih hls, List.intercalate_cons_of_ne_nil hls]
      simp

/-- An element that does not occur in `b`, seen from another occurrence. -/
theorem append_cons_eq (hx : x ∉ b) {s t : List α} (h : s ++ x :: t = a ++ x :: b) :
    (s = a ∧ t = b) ∨ ∃ c, a = s ++ x :: c ∧ t = c ++ x :: b := by
  rcases List.append_eq_append_iff.mp h with ⟨c, rfl, hc⟩ | ⟨c, rfl, hc⟩
  · cases c with
    | nil => exact .inl ⟨by simp, (List.cons.inj hc).2⟩
    | cons y c =>
      obtain ⟨rfl, rfl⟩ := List.cons.inj hc
      exact .inr ⟨c, rfl, rfl⟩
  · cases c with
    | nil => exact .inl ⟨by simp, (List.cons.inj hc).2.symm⟩
    | cons y c =>
      obtain ⟨rfl, rfl⟩ := List.cons.inj hc
      exact absurd (by simp) hx

end K8sSched.Lib.Substrings
