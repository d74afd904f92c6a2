import K8sSched.Lib.GoMap

/-! # A store with a record of what each owner wrote

Owners write a value under several keys of a shared store, and for each owner
the keys of its last write are recorded. Removing an owner deletes the recorded
keys and any further keys given. What the store and the record hold after a
history of writes, and when a removal deletes all an owner ever wrote. -/

namespace K8sSched.Lib.WriteRecord

open K8sSched.Lib.GoMap

variable {ω κ ν : Type} [DecidableEq ω] [DecidableEq κ]

structure Write (ω κ ν : Type) where
  owner : ω
  value : ν
  keys : List κ

structure Ledger (ω κ ν : Type) where
  store : Finmap fun _ : κ => ν
  record : Finmap fun _ : ω => List κ

namespace Ledger

def empty : Ledger ω κ ν := ⟨∅, ∅⟩

def write (l : Ledger ω κ ν) (w : Write ω κ ν) : Ledger ω κ ν where
  store := insertAll l.store w.keys w.value
  record := l.record.insert w.owner w.keys

def run (l : Ledger ω κ ν) (ws : List (Write ω κ ν)) : Ledger ω κ ν := ws.foldl write l

/-- The keys recorded for an owner, none without a record. -/
def recorded (l : Ledger ω κ ν) (o : ω) : List κ := (l.record.lookup o).getD []

def remove (l : Ledger ω κ ν) (o : ω) (others : List κ) : Ledger ω κ ν where
  store := eraseAll l.store (l.recorded o ++ others)
  record := l.record.erase o

end Ledger

/-- The value of the last write to a key. -/
def lastValue (ws : List (Write ω κ ν)) (k : κ) : Option ν :=
  (ws.reverse.find? fun w => k ∈ w.keys).map Write.value

/-- The keys of an owner's last write. -/
def lastKeys (ws : List (Write ω κ ν)) (o : ω) : List κ :=
  ((ws.reverse.find? fun w => w.owner = o).map Write.keys).getD []

/-- Every key an owner ever wrote. -/
def everWritten (ws : List (Write ω κ ν)) (o : ω) : List κ :=
  (ws.filter fun w => w.owner = o).flatMap Write.keys

namespace Ledger

theorem run_append (l : Ledger ω κ ν) (ws ws' : List (Write ω κ ν)) :
    l.run (ws ++ ws') = (l.run ws).run ws' := List.foldl_append

theorem run_concat (l : Ledger ω κ ν) (ws : List (Write ω κ ν)) (w : Write ω κ ν) :
    l.run (ws ++ [w]) = (l.run ws).write w := run_append l ws [w]

theorem lookup_run (ws : List (Write ω κ ν)) (k : κ) :
    (empty.run ws : Ledger ω κ ν).store.lookup k = lastValue ws k := by
  induction ws using List.reverseRecOn with
  | nil => rfl
  | append_singleton ws w ih =>
    rw [run_concat]
    show (insertAll _ w.keys w.value).lookup k = _
    rw [lookup_insertAll, ih, lastValue, lastValue, List.reverse_concat, List.find?_cons]
    by_cases hk : k ∈ w.keys
    · simp [hk]
    · simp [hk]

theorem recorded_run (ws : List (Write ω κ ν)) (o : ω) :
    (empty.run ws : Ledger ω κ ν).recorded o = lastKeys ws o := by
  induction ws using List.reverseRecOn with
  | nil => rfl
  | append_singleton ws w ih =>
    rw [run_concat]
    show (((empty.run ws).record.insert w.owner w.keys).lookup o).getD [] = _
    rw [lastKeys, List.reverse_concat, List.find?_cons]
    by_cases ho : w.owner = o
    · subst ho
      simp
    · rw [Finmap.lookup_insert_of_ne _ (Ne.symm ho)]
      simpa [ho, recorded, lastKeys] using ih

omit [DecidableEq ω] in
theorem lastValue_isSome {ws : List (Write ω κ ν)} {k : κ} :
    (lastValue ws k).isSome ↔ ∃ w ∈ ws, k ∈ w.keys := by
  simp [lastValue]

theorem lookup_remove (l : Ledger ω κ ν) (o : ω) (others : List κ) (k : κ) :
    (l.remove o others).store.lookup k =
      if k ∈ l.recorded o ∨ k ∈ others then none else l.store.lookup k := by
  show (eraseAll l.store (l.recorded o ++ others)).lookup k = _
  rw [lookup_eraseAll]
  simp only [List.mem_append]

/-- A removal leaves nothing the owner wrote exactly when every key it ever
wrote is in its last write or among the further keys. -/
theorem removed_iff (ws : List (Write ω κ ν)) (o : ω) (others : List κ) :
    (∀ k ∈ everWritten ws o,
        ((empty.run ws : Ledger ω κ ν).remove o others).store.lookup k = none) ↔
      ∀ k ∈ everWritten ws o, k ∈ lastKeys ws o ∨ k ∈ others := by
  refine forall₂_congr fun k hk => ?_
  obtain ⟨w, hw, hkw⟩ := List.mem_flatMap.mp hk
  have hsome : lastValue ws k ≠ none := by
    rw [← Option.isSome_iff_ne_none, lastValue_isSome]
    exact ⟨w, List.mem_of_mem_filter hw, hkw⟩
  rw [lookup_remove, recorded_run, lookup_run]
  by_cases h : k ∈ lastKeys ws o ∨ k ∈ others
  · exact iff_of_true (if_pos h) h
  · rw [if_neg h]
    exact iff_of_false hsome h

end Ledger

end K8sSched.Lib.WriteRecord
