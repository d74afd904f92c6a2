import Mathlib.Data.Finmap

/-! # A copy fed by changes

A finite map and a copy of it that follows through a queue of changes, each of
which puts a value under a key or drops the key, with the last value known of it.
When changes were lost, the copy is brought in line by the difference of the two
maps, taken key by key in any order. -/

namespace K8sSched.Lib.Changefeed

variable {κ ν : Type} [DecidableEq κ]

inductive Change (κ ν : Type)
  | put (key : κ) (value : ν)
  | drop (key : κ) (last : ν)

def Change.key : Change κ ν → κ
  | .put key _ => key
  | .drop key _ => key

/-- What is under the key afterwards. -/
def Change.value? : Change κ ν → Option ν
  | .put _ value => some value
  | .drop _ _ => none

def apply (m : Finmap fun _ : κ => ν) : Change κ ν → Finmap fun _ : κ => ν
  | .put key value => m.insert key value
  | .drop key _ => m.erase key

theorem lookup_apply_self (m : Finmap fun _ : κ => ν) (c : Change κ ν) :
    (apply m c).lookup c.key = c.value? := by
  cases c with
  | put key value => exact Finmap.lookup_insert m
  | drop key last => exact Finmap.lookup_erase key m

theorem lookup_apply_of_ne (m : Finmap fun _ : κ => ν) {c : Change κ ν} {k : κ} (hk : k ≠ c.key) :
    (apply m c).lookup k = m.lookup k := by
  cases c with
  | put key value => exact Finmap.lookup_insert_of_ne m hk
  | drop key last => exact Finmap.lookup_erase_ne hk

/-- Changes that all agree with a map at their keys bring another in line with
it, if every key where the two differ has a change. -/
theorem foldl_eq_of_agree {source copy : Finmap fun _ : κ => ν} {cs : List (Change κ ν)}
    (hagree : ∀ c ∈ cs, c.value? = source.lookup c.key)
    (hcover : ∀ k, (∀ c ∈ cs, c.key ≠ k) → copy.lookup k = source.lookup k) :
    cs.foldl apply copy = source := by
  induction cs generalizing copy with
  | nil => exact Finmap.ext_lookup fun k => hcover k (by simp)
  | cons c cs ih =>
    refine ih (fun c' hc' => hagree c' (List.mem_cons_of_mem _ hc')) fun k hk => ?_
    by_cases heq : k = c.key
    · rw [heq, lookup_apply_self]
      exact hagree c List.mem_cons_self
    · rw [lookup_apply_of_ne copy heq]
      refine hcover k fun c' hc' => ?_
      rcases List.mem_cons.mp hc' with rfl | hc'
      · exact Ne.symm heq
      · exact hk c' hc'

/-! ## The difference of two maps -/

/-- The change a key needs: what the source has under it, or its removal. -/
def changeAt (source copy : Finmap fun _ : κ => ν) (k : κ) : Option (Change κ ν) :=
  match source.lookup k, copy.lookup k with
  | some v, _ => some (.put k v)
  | none, some last => some (.drop k last)
  | none, none => none

theorem changeAt_eq_some {source copy : Finmap fun _ : κ => ν} {k : κ} {c : Change κ ν}
    (h : changeAt source copy k = some c) :
    c.key = k ∧ c.value? = source.lookup k := by
  unfold changeAt at h
  split at h
  · next v hv =>
    cases h
    exact ⟨rfl, hv.symm⟩
  · next last hs hc =>
    cases h
    exact ⟨rfl, hs.symm⟩
  · cases h

theorem changeAt_eq_none {source copy : Finmap fun _ : κ => ν} {k : κ}
    (h : changeAt source copy k = none) : copy.lookup k = source.lookup k := by
  unfold changeAt at h
  split at h
  · cases h
  · cases h
  · next hs hc => rw [hs, hc]

def diff (source copy : Finmap fun _ : κ => ν) (keys : List κ) : List (Change κ ν) :=
  keys.filterMap (changeAt source copy)

theorem foldl_diff {source copy : Finmap fun _ : κ => ν} {keys : List κ}
    (hkeys : source.keys ∪ copy.keys ⊆ keys.toFinset) :
    (diff source copy keys).foldl apply copy = source := by
  refine foldl_eq_of_agree (fun c hc => ?_) fun k hk => ?_
  · obtain ⟨k, -, hck⟩ := List.mem_filterMap.mp hc
    obtain ⟨hkey, hvalue⟩ := changeAt_eq_some hck
    rw [hkey, hvalue]
  · cases hchange : changeAt source copy k with
    | none => exact changeAt_eq_none hchange
    | some c =>
      -- a key with a change is in one of the maps, so it is listed
      have hlisted : k ∈ keys := by
        refine List.mem_toFinset.mp (hkeys (Finset.mem_union.mpr ?_))
        simp only [Finmap.mem_keys]
        unfold changeAt at hchange
        split at hchange
        · next v hv => exact .inl (Finmap.mem_of_lookup_eq_some hv)
        · next last _ hc => exact .inr (Finmap.mem_of_lookup_eq_some hc)
        · cases hchange
      have hmem : c ∈ diff source copy keys := List.mem_filterMap.mpr ⟨k, hlisted, hchange⟩
      exact absurd (changeAt_eq_some hchange).1 (hk c hmem)

end K8sSched.Lib.Changefeed
