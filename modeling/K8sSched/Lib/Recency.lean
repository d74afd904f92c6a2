import Mathlib.Data.Finset.Card
import Mathlib.Data.List.Dedup
import Mathlib.Data.List.Induction

/-! # Lists in order of their last use

`recent uses` has every key of a sequence of uses once, the last one used first.
A list of bounded length whose keys are moved to the front by their use is the
start of it. -/

namespace K8sSched.Lib.Recency

variable {α : Type*} [DecidableEq α]

/-- The keys used, the most recent first. -/
def recent (uses : List α) : List α := uses.dedup.reverse

theorem dedup_concat (l : List α) (k : α) : (l ++ [k]).dedup = l.dedup.erase k ++ [k] := by
  induction l with
  | nil => rfl
  | cons a l ih =>
    rw [List.cons_append]
    by_cases ha : a ∈ l
    · rw [List.dedup_cons_of_mem ha, List.dedup_cons_of_mem (List.mem_append_left _ ha), ih]
    · rw [List.dedup_cons_of_notMem ha]
      by_cases hak : a = k
      · rw [← hak, List.dedup_cons_of_mem (by simp), hak, ih, ← hak, List.erase_cons_head,
          List.erase_of_not_mem (mt List.mem_dedup.mp ha)]
      · rw [List.dedup_cons_of_notMem (by simp [ha, hak]), ih, List.erase_cons_tail (by simpa),
          List.cons_append]

theorem nodup_recent (uses : List α) : (recent uses).Nodup :=
  List.nodup_reverse.mpr (List.nodup_dedup uses)

/-- A use moves the key to the front. -/
theorem recent_concat (uses : List α) (k : α) :
    recent (uses ++ [k]) = k :: (recent uses).erase k := by
  have herase : (uses.dedup.erase k).reverse = (recent uses).erase k := by
    rw [(List.nodup_dedup uses).erase_eq_filter, (nodup_recent uses).erase_eq_filter, recent,
      List.filter_reverse]
  rw [recent, dedup_concat, List.reverse_append, List.reverse_singleton, List.singleton_append,
    herase]

theorem length_recent (uses : List α) : (recent uses).length = uses.toFinset.card := by
  rw [recent, List.length_reverse, List.card_toFinset]

/-- A key is used in a list of `c` keys at most. -/
def use (c : Nat) (l : List α) (k : α) : List α := (k :: l.erase k).take c

/-- What is beyond the first `c` keys does not matter for them. -/
theorem take_use (c : Nat) (l : List α) (k : α) : use c (l.take c) k = use c l k := by
  cases c with
  | zero => rfl
  | succ c =>
    simp only [use, List.take_succ_cons, List.cons.injEq, true_and]
    induction l generalizing c with
    | nil => rfl
    | cons a l ih =>
      by_cases hak : a = k
      · rw [hak, List.take_succ_cons, List.erase_cons_head, List.erase_cons_head, List.take_take,
          Nat.min_self]
      · rw [List.take_succ_cons, List.erase_cons_tail (by simpa), List.erase_cons_tail (by simpa)]
        cases c with
        | zero => rfl
        | succ c => rw [List.take_succ_cons, List.take_succ_cons, ih]

theorem foldl_use (c : Nat) (uses : List α) : uses.foldl (use c) [] = (recent uses).take c := by
  induction uses using List.reverseRecOn with
  | nil => rw [List.foldl_nil, recent, List.dedup_nil, List.reverse_nil, List.take_nil]
  | append_singleton uses k ih =>
    rw [List.foldl_append, List.foldl_cons, List.foldl_nil, ih, take_use, use, recent_concat]

end K8sSched.Lib.Recency
