import Mathlib.Algebra.Order.BigOperators.Group.List
import Mathlib.Algebra.Order.Group.Nat
import Mathlib.Algebra.GroupWithZero.Nat
import Mathlib.Data.List.Induction

/-! # Counters in shards

A counter is kept as one number per shard, and every event adds one to at most
one shard. A reader that copies one shard after another while events go on gets a
total the counter had at some moment of the reading. -/

namespace K8sSched.Lib.Shards

variable {ε κ : Type*} [DecidableEq κ] {shard : ε → Option κ} {c : κ} {cs : List κ}
  {tr tr' pre mid : List ε}

/-- What the events add to one shard. -/
def onShard (shard : ε → Option κ) (c : κ) (tr : List ε) : Nat :=
  tr.countP fun e => decide (shard e = some c)

/-- What the events add in total. -/
def total (shard : ε → Option κ) (tr : List ε) : Nat := tr.countP fun e => (shard e).isSome

theorem onShard_append (shard : ε → Option κ) (c : κ) (tr tr' : List ε) :
    onShard shard c (tr ++ tr') = onShard shard c tr + onShard shard c tr' :=
  List.countP_append

omit [DecidableEq κ] in
theorem total_append (shard : ε → Option κ) (tr tr' : List ε) :
    total shard (tr ++ tr') = total shard tr + total shard tr' :=
  List.countP_append

theorem onShard_le_total (shard : ε → Option κ) (c : κ) (tr : List ε) :
    onShard shard c tr ≤ total shard tr := by
  refine List.countP_mono_left fun e _ h => ?_
  simp only [decide_eq_true_eq] at h
  rw [h]
  rfl

omit [DecidableEq κ] in
theorem total_le_of_prefix (shard : ε → Option κ) (h : tr <+: tr') :
    total shard tr ≤ total shard tr' :=
  h.sublist.countP_le

theorem sum_ite_eq (hn : cs.Nodup) (hc : c ∈ cs) :
    (cs.map fun d => if c = d then 1 else 0).sum = 1 := by
  induction cs with
  | nil => simp at hc
  | cons d cs ih =>
    obtain ⟨hd, hn⟩ := List.nodup_cons.mp hn
    rw [List.map_cons, List.sum_cons]
    by_cases h : c = d
    · subst h
      have hzero : (cs.map fun d => if c = d then 1 else 0).sum = 0 := by
        refine List.sum_eq_zero fun x hx => ?_
        obtain ⟨d, hd', rfl⟩ := List.mem_map.mp hx
        exact if_neg fun heq : c = d => hd (heq ▸ hd')
      rw [if_pos rfl, hzero]
    · rw [if_neg h, ih hn ((List.mem_cons.mp hc).resolve_left h)]

theorem sum_onShard (hn : cs.Nodup) (hall : ∀ c, c ∈ cs) (tr : List ε) :
    (cs.map fun c => onShard shard c tr).sum = total shard tr := by
  induction tr with
  | nil => simp [onShard, total]
  | cons e tr ih =>
    simp only [onShard, total, List.countP_cons] at ih ⊢
    rw [List.sum_map_add, ih]
    congr 1
    cases h : shard e with
    | none => simp
    | some c => simpa using sum_ite_eq hn (hall c)

omit [DecidableEq κ] in
/-- Events add one at a time, so every number between two totals is one. -/
theorem exists_moment (shard : ε → Option κ) (pre mid : List ε) {k : Nat}
    (hlo : total shard pre ≤ k) (hhi : k ≤ total shard (pre ++ mid)) :
    ∃ moment, pre <+: moment ∧ moment <+: pre ++ mid ∧ total shard moment = k := by
  induction mid using List.reverseRecOn with
  | nil =>
    rw [List.append_nil] at hhi ⊢
    exact ⟨pre, List.prefix_rfl, List.prefix_rfl, le_antisymm hlo hhi⟩
  | append_singleton mid e ih =>
    by_cases h : k ≤ total shard (pre ++ mid)
    · obtain ⟨moment, h1, h2, h3⟩ := ih h
      exact ⟨moment, h1, h2.trans ⟨[e], by simp⟩, h3⟩
    · refine ⟨pre ++ (mid ++ [e]), List.prefix_append _ _, List.prefix_rfl, ?_⟩
      rw [← List.append_assoc, total_append] at hhi ⊢
      have hone : total shard [e] ≤ 1 := List.countP_le_length
      omega

/-- A copy of every shard, each taken at some moment between the two ends, adds up
to what the counter was at some moment between them. -/
theorem exists_moment_of_copies (hn : cs.Nodup) (hall : ∀ c, c ∈ cs) {start copy : κ → Nat}
    (hlo : ∀ c, start c + onShard shard c pre ≤ copy c)
    (hhi : ∀ c, copy c ≤ start c + onShard shard c (pre ++ mid)) :
    ∃ moment, pre <+: moment ∧ moment <+: pre ++ mid ∧
      (cs.map copy).sum = (cs.map start).sum + total shard moment := by
  have hsum : ∀ tr, (cs.map fun c => start c + onShard shard c tr).sum =
      (cs.map start).sum + total shard tr := by
    intro tr
    rw [List.sum_map_add, sum_onShard hn hall]
  have hlo := List.sum_le_sum fun c (_ : c ∈ cs) => hlo c
  have hhi := List.sum_le_sum fun c (_ : c ∈ cs) => hhi c
  rw [hsum] at hlo hhi
  obtain ⟨moment, h1, h2, h3⟩ := exists_moment shard pre mid
    (k := (cs.map copy).sum - (cs.map start).sum) (by omega) (by omega)
  exact ⟨moment, h1, h2, by omega⟩

end K8sSched.Lib.Shards
