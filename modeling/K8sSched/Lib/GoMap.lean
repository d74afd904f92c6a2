import Mathlib.Data.Finmap

/-! # Loops over hash maps

Finite maps with the loops programs run over them: a range over all entries that
keeps, changes or deletes the current one, as one operation and one entry at a
time; a batch of writes, each of which can fail, that goes on after a failure and
reports the first one; a batch of deletions; a batch of updates that each change
one key. Each loop is given by what a lookup finds after it. -/

namespace K8sSched.Lib.GoMap

variable {κ ν ε : Type} [DecidableEq κ]

/-! ## One entry -/

theorem lookup_insert_eq_some {m : Finmap fun _ : κ => ν} {k k' : κ} {v w : ν} :
    (m.insert k v).lookup k' = some w ↔ k' = k ∧ v = w ∨ k' ≠ k ∧ m.lookup k' = some w := by
  by_cases hk : k' = k
  · rw [hk, Finmap.lookup_insert]
    simp
  · rw [Finmap.lookup_insert_of_ne _ hk]
    simp [hk]

theorem lookup_erase_eq_some {m : Finmap fun _ : κ => ν} {k k' : κ} {v : ν} :
    (m.erase k).lookup k' = some v ↔ k' ≠ k ∧ m.lookup k' = some v := by
  by_cases hk : k' = k
  · rw [hk, Finmap.lookup_erase]
    simp
  · rw [Finmap.lookup_erase_ne hk]
    simp [hk]

/-! ## Range -/

omit [DecidableEq κ] in
theorem nodupKeys_filterMap (f : κ → ν → Option ν) {l : List (Sigma fun _ : κ => ν)}
    (h : l.NodupKeys) :
    (l.filterMap fun e => (f e.1 e.2).map fun v => (⟨e.1, v⟩ : Sigma fun _ => ν)).NodupKeys := by
  rw [List.nodupKeys_iff_pairwise] at h ⊢
  refine h.filterMap _ fun a a' hne b hb b' hb' => ?_
  obtain ⟨v, -, rfl⟩ := Option.map_eq_some_iff.mp hb
  obtain ⟨v', -, rfl⟩ := Option.map_eq_some_iff.mp hb'
  exact hne

/-- Every entry is kept, changed or deleted by a function of its key and value. -/
def rangeUpdate (f : κ → ν → Option ν) (m : Finmap fun _ : κ => ν) : Finmap fun _ : κ => ν where
  entries := m.entries.filterMap fun e => (f e.1 e.2).map fun v => ⟨e.1, v⟩
  nodupKeys := by
    obtain ⟨s, hs⟩ := m
    induction s using Quotient.inductionOn with
    | h l => exact nodupKeys_filterMap f hs

theorem lookup_rangeUpdate (f : κ → ν → Option ν) (m : Finmap fun _ : κ => ν) (k : κ) :
    (rangeUpdate f m).lookup k = (m.lookup k).bind (f k) := by
  ext v
  simp only [← Option.mem_def]
  rw [Finmap.mem_lookup_iff, Option.mem_bind_iff]
  simp only [Finmap.mem_lookup_iff]
  constructor
  · intro h
    obtain ⟨⟨k', v'⟩, he, hf⟩ := (Multiset.mem_filterMap _ _).mp h
    obtain ⟨u, hu, heq⟩ := Option.map_eq_some_iff.mp hf
    cases heq
    exact ⟨v', he, hu⟩
  · intro h
    obtain ⟨v', he, hu⟩ := h
    exact (Multiset.mem_filterMap _ _).mpr
      ⟨⟨k, v'⟩, he, Option.map_eq_some_iff.mpr ⟨v, hu, rfl⟩⟩

/-! ## Writes -/

/-- The same value under every key of a list. -/
def insertAll (m : Finmap fun _ : κ => ν) (l : List κ) (v : ν) : Finmap fun _ : κ => ν :=
  l.foldl (fun m k => m.insert k v) m

theorem lookup_insertAll (m : Finmap fun _ : κ => ν) (l : List κ) (v : ν) (k : κ) :
    (insertAll m l v).lookup k = if k ∈ l then some v else m.lookup k := by
  induction l generalizing m with
  | nil => rfl
  | cons x l ih =>
    show (insertAll (m.insert x v) l v).lookup k = _
    rw [ih]
    by_cases hx : k = x
    · subst hx
      simp
    · simp [hx, Finmap.lookup_insert_of_ne _ hx]

/-- One write of a batch: its key, and the error it fails with, if it does. -/
structure Put (κ ε : Type) where
  key : κ
  err : Option ε
  deriving DecidableEq

/-- The map, the keys written and the first error. -/
structure PutState (κ ν ε : Type) where
  map : Finmap fun _ : κ => ν
  written : List κ
  firstErr : Option ε

def putOne (describe : κ → ε → ε) (v : ν) (s : PutState κ ν ε) (p : Put κ ε) : PutState κ ν ε :=
  match p.err with
  | some e =>
    { s with firstErr := if s.firstErr.isNone then some (describe p.key e) else s.firstErr }
  | none => { s with map := s.map.insert p.key v, written := s.written ++ [p.key] }

/-- A batch of writes of one value. -/
def putAll (describe : κ → ε → ε) (v : ν) (m : Finmap fun _ : κ => ν) (l : List (Put κ ε)) :
    PutState κ ν ε :=
  l.foldl (putOne describe v) ⟨m, [], none⟩

/-- The keys whose writes succeed. -/
def succeeded (l : List (Put κ ε)) : List κ := (l.filter fun p => p.err.isNone).map Put.key

section

omit [DecidableEq κ]

@[simp] theorem succeeded_nil : succeeded ([] : List (Put κ ε)) = [] := rfl

@[simp] theorem succeeded_cons_none (k : κ) (l : List (Put κ ε)) :
    succeeded (⟨k, none⟩ :: l) = k :: succeeded l := rfl

@[simp] theorem succeeded_cons_some (k : κ) (e : ε) (l : List (Put κ ε)) :
    succeeded (⟨k, some e⟩ :: l) = succeeded l := rfl

theorem succeeded_of_all {l : List (Put κ ε)} (h : ∀ p ∈ l, p.err = none) :
    succeeded l = l.map Put.key := by
  rw [succeeded, List.filter_eq_self.mpr fun p hp => by simp [h p hp]]

end

section Put

variable (describe : κ → ε → ε) (v : ν)

theorem foldl_putOne_written (l : List (Put κ ε)) (s : PutState κ ν ε) :
    (l.foldl (putOne describe v) s).written = s.written ++ succeeded l := by
  induction l generalizing s with
  | nil => simp
  | cons p l ih =>
    rw [List.foldl_cons, ih]
    obtain ⟨k, _ | e⟩ := p
    · simp [putOne]
    · simp [putOne]

theorem foldl_putOne_map (l : List (Put κ ε)) (s : PutState κ ν ε) :
    (l.foldl (putOne describe v) s).map = insertAll s.map (succeeded l) v := by
  induction l generalizing s with
  | nil => rfl
  | cons p l ih =>
    rw [List.foldl_cons, ih]
    obtain ⟨k, _ | e⟩ := p
    · rfl
    · rfl

theorem foldl_putOne_firstErr (l : List (Put κ ε)) (s : PutState κ ν ε) :
    (l.foldl (putOne describe v) s).firstErr = none ↔
      s.firstErr = none ∧ ∀ p ∈ l, p.err = none := by
  induction l generalizing s with
  | nil => simp
  | cons p l ih =>
    rw [List.foldl_cons, ih]
    obtain ⟨k, _ | e⟩ := p
    · simp [putOne]
    · by_cases hs : s.firstErr = none
      · simp [putOne, hs]
      · simp [putOne, hs]

variable (m : Finmap fun _ : κ => ν) (l : List (Put κ ε))

theorem putAll_written : (putAll describe v m l).written = succeeded l := by
  simp [putAll, foldl_putOne_written]

theorem putAll_map : (putAll describe v m l).map = insertAll m (succeeded l) v :=
  foldl_putOne_map describe v l _

theorem putAll_firstErr : (putAll describe v m l).firstErr = none ↔ ∀ p ∈ l, p.err = none := by
  simp [putAll, foldl_putOne_firstErr]

end Put

/-! ## Deletions -/

def eraseAll (m : Finmap fun _ : κ => ν) (l : List κ) : Finmap fun _ : κ => ν :=
  l.foldl (fun m k => m.erase k) m

theorem lookup_eraseAll (m : Finmap fun _ : κ => ν) (l : List κ) (k : κ) :
    (eraseAll m l).lookup k = if k ∈ l then none else m.lookup k := by
  induction l generalizing m with
  | nil => simp [eraseAll]
  | cons x l ih =>
    show (eraseAll (m.erase x) l).lookup k = _
    rw [ih]
    by_cases hx : k = x
    · subst hx
      simp
    · simp [hx, Finmap.lookup_erase_ne hx]

theorem mem_eraseAll (m : Finmap fun _ : κ => ν) (l : List κ) (k : κ) :
    k ∈ eraseAll m l ↔ k ∈ m ∧ k ∉ l := by
  rw [← Finmap.lookup_isSome, lookup_eraseAll, ← Finmap.lookup_isSome]
  by_cases hk : k ∈ l
  · simp [hk]
  · simp [hk]

/-! ## Updates of single keys -/

section Batch

variable {S A V : Type} {update : S → A → S} (key : A → κ) (read : S → κ → V)

omit [DecidableEq κ] in
theorem read_foldl_of_not_mem (hframe : ∀ s a k, k ≠ key a → read (update s a) k = read s k)
    {l : List A} {k : κ} (hk : k ∉ l.map key) (s : S) :
    read (l.foldl update s) k = read s k := by
  induction l generalizing s with
  | nil => rfl
  | cons a l ih =>
    obtain ⟨hne, hrest⟩ := not_or.mp fun h => hk (List.mem_cons.mpr h)
    rw [List.foldl_cons, ih hrest, hframe s a k hne]

omit [DecidableEq κ] in
/-- When no key is updated twice, each update finds what was there before all of
them, in whatever order they come. -/
theorem read_foldl_of_mem (effect : A → V → V)
    (hframe : ∀ s a k, k ≠ key a → read (update s a) k = read s k)
    (hupdate : ∀ s a, read (update s a) (key a) = effect a (read s (key a)))
    {l : List A} (hnodup : (l.map key).Nodup) {a : A} (ha : a ∈ l) (s : S) :
    read (l.foldl update s) (key a) = effect a (read s (key a)) := by
  induction l generalizing s with
  | nil => cases ha
  | cons b l ih =>
    obtain ⟨hfresh, hrest⟩ := List.nodup_cons.mp hnodup
    rw [List.foldl_cons]
    rcases List.mem_cons.mp ha with rfl | ha
    · rw [read_foldl_of_not_mem key read hframe hfresh, hupdate]
    · have hne : key a ≠ key b := fun heq => hfresh (heq ▸ List.mem_map_of_mem ha)
      rw [ih hrest ha, hframe s b (key a) hne]

end Batch

/-! ## Range, one entry at a time -/

/-- An order in which a range visits the keys. -/
def Ranges (m : Finmap fun _ : κ => ν) (order : List κ) : Prop :=
  (order : Multiset κ) = m.keys.val

instance (m : Finmap fun _ : κ => ν) (order : List κ) : Decidable (Ranges m order) :=
  inferInstanceAs (Decidable (_ = _))

/-- The range reaches a key: its entry, if it is still there, is changed or
deleted in the map itself. -/
def rangeOne (f : κ → ν → Option ν) (m : Finmap fun _ : κ => ν) (k : κ) :
    Finmap fun _ : κ => ν :=
  match m.lookup k with
  | none => m
  | some v =>
    match f k v with
    | some w => m.insert k w
    | none => m.erase k

theorem lookup_rangeOne_ne (f : κ → ν → Option ν) (m : Finmap fun _ : κ => ν) {k k' : κ}
    (hk : k' ≠ k) : (rangeOne f m k).lookup k' = m.lookup k' := by
  unfold rangeOne
  split
  · rfl
  · split
    · exact Finmap.lookup_insert_of_ne _ hk
    · exact Finmap.lookup_erase_ne hk

theorem lookup_rangeOne (f : κ → ν → Option ν) (m : Finmap fun _ : κ => ν) (k : κ) :
    (rangeOne f m k).lookup k = (m.lookup k).bind (f k) := by
  unfold rangeOne
  split
  · next hm => rw [hm, Option.bind_none]
  · next v hm =>
    rw [hm, Option.bind_some]
    split
    · next w hf => rw [Finmap.lookup_insert, hf]
    · next hf => rw [Finmap.lookup_erase, hf]

/-- In whatever order the range visits the keys, it updates every entry once. -/
theorem foldl_rangeOne (f : κ → ν → Option ν) {m : Finmap fun _ : κ => ν} {order : List κ}
    (h : Ranges m order) : order.foldl (rangeOne f) m = rangeUpdate f m := by
  have hframe : ∀ (m : Finmap fun _ : κ => ν) k k', k' ≠ id k →
      (rangeOne f m k).lookup k' = m.lookup k' := fun m k k' => lookup_rangeOne_ne f m
  have hnodup : (order.map id).Nodup := by
    rw [List.map_id, ← Multiset.coe_nodup, h]
    exact m.keys.nodup
  have hmem : ∀ k, k ∈ order ↔ k ∈ m := by
    intro k
    rw [← Multiset.mem_coe, h, Finset.mem_val, Finmap.mem_keys]
  apply Finmap.ext_lookup
  intro k
  rw [lookup_rangeUpdate]
  by_cases hk : k ∈ order
  · exact read_foldl_of_mem id (fun m k => m.lookup k) (fun k v => v.bind (f k)) hframe
      (lookup_rangeOne f) hnodup hk m
  · have hnone : m.lookup k = none := Finmap.lookup_eq_none.mpr fun hm => hk ((hmem k).mpr hm)
    have hsame : (order.foldl (rangeOne f) m).lookup k = m.lookup k :=
      read_foldl_of_not_mem id (fun m k => m.lookup k) hframe (by rwa [List.map_id]) m
    rw [hsame, hnone, Option.bind_none]

end K8sSched.Lib.GoMap
