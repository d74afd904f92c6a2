import Mathlib.Data.Finset.Basic

/-! # A lock for many readers or one writer

A writer announces itself and waits for the readers that hold the lock; from
then on no reader and no other writer gets in. The lock agrees with what the
threads say of themselves, each being outside, reading, waiting to write, or
writing: readers and a writer exclude each other, and unless a thread is inside,
one that wants the lock can take it. -/

namespace K8sSched.Lib.RwLock

variable {ι : Type} [DecidableEq ι]

structure RwMutex (ι : Type) where
  readers : Finset ι
  pending : Option ι
  writer : Option ι

def RwMutex.free : RwMutex ι := ⟨∅, none, none⟩

/-- No writer is inside or announced. -/
def RwMutex.admits (m : RwMutex ι) : Bool := m.writer.isNone && m.pending.isNone

def RwMutex.rLock (m : RwMutex ι) (i : ι) : Option (RwMutex ι) :=
  if m.admits then some { m with readers := insert i m.readers } else none

def RwMutex.rUnlock (m : RwMutex ι) (i : ι) : RwMutex ι := { m with readers := m.readers.erase i }

def RwMutex.announce (m : RwMutex ι) (i : ι) : Option (RwMutex ι) :=
  if m.admits then some { m with pending := some i } else none

def RwMutex.lock (m : RwMutex ι) (i : ι) : Option (RwMutex ι) :=
  if m.pending = some i ∧ m.readers = ∅ then some { m with pending := none, writer := some i }
  else none

def RwMutex.unlock (m : RwMutex ι) : RwMutex ι := { m with writer := none }

/-- Where a thread is. -/
inductive Mode
  | outside
  | reads
  | waits
  | writes
  deriving DecidableEq

structure Agrees (m : RwMutex ι) (mode : ι → Mode) : Prop where
  readers : ∀ i, i ∈ m.readers ↔ mode i = .reads
  pending : ∀ i, m.pending = some i ↔ mode i = .waits
  writer : ∀ i, m.writer = some i ↔ mode i = .writes
  alone : m.writer.isSome → m.readers = ∅ ∧ m.pending = none

section

variable {m m' : RwMutex ι} {mode mode' : ι → Mode} {i j : ι}

omit [DecidableEq ι] in
theorem Agrees.congr (h : Agrees m mode) (hmode : ∀ j, mode' j = mode j) : Agrees m mode' := by
  have heq : mode' = mode := funext hmode
  rw [heq]
  exact h

omit [DecidableEq ι] in
theorem free_agrees (h : ∀ i, mode i = .outside) : Agrees RwMutex.free mode where
  readers := by simp [RwMutex.free, h]
  pending := by simp [RwMutex.free, h]
  writer := by simp [RwMutex.free, h]
  alone := by simp [RwMutex.free]

omit [DecidableEq ι] in
/-- While one thread reads, none writes. -/
theorem Agrees.not_writes (h : Agrees m mode) (hi : mode i = .reads) : mode j ≠ .writes := by
  intro hj
  have hempty := (h.alone (by rw [(h.writer j).mpr hj]; rfl)).1
  have hmem := (h.readers i).mpr hi
  rw [hempty] at hmem
  exact absurd hmem (Finset.notMem_empty i)

omit [DecidableEq ι] in
theorem admits_iff : m.admits = true ↔ m.writer = none ∧ m.pending = none := by
  simp [RwMutex.admits]

theorem Agrees.rLock (h : Agrees m mode) (hm : m.rLock i = some m') :
    Agrees m' (Function.update mode i .reads) := by
  unfold RwMutex.rLock at hm
  split at hm
  · next hadmits =>
    cases hm
    obtain ⟨hw, hp⟩ := admits_iff.mp hadmits
    refine ⟨fun j => ?_, fun j => ?_, fun j => ?_, by simp [hw]⟩
    · by_cases hj : j = i
      · simp [hj]
      · simp [hj, h.readers j]
    · by_cases hj : j = i
      · simp [hj, hp]
      · simp [hj, h.pending j]
    · by_cases hj : j = i
      · simp [hj, hw]
      · simp [hj, h.writer j]
  · cases hm

theorem Agrees.rUnlock (h : Agrees m mode) (hi : mode i = .reads) :
    Agrees (m.rUnlock i) (Function.update mode i .outside) := by
  refine ⟨fun j => ?_, fun j => ?_, fun j => ?_, fun hw => ?_⟩
  · by_cases hj : j = i
    · simp [hj, RwMutex.rUnlock]
    · simp [hj, RwMutex.rUnlock, h.readers j]
  · by_cases hj : j = i
    · simp [hj, RwMutex.rUnlock, h.pending i, hi]
    · simp [hj, RwMutex.rUnlock, h.pending j]
  · by_cases hj : j = i
    · simp [hj, RwMutex.rUnlock, h.writer i, hi]
    · simp [hj, RwMutex.rUnlock, h.writer j]
  · obtain ⟨hempty, hp⟩ := h.alone hw
    exact ⟨by simp [RwMutex.rUnlock, hempty], hp⟩

theorem Agrees.announce (h : Agrees m mode) (hi : mode i = .outside)
    (hm : m.announce i = some m') : Agrees m' (Function.update mode i .waits) := by
  unfold RwMutex.announce at hm
  split at hm
  · next hadmits =>
    cases hm
    obtain ⟨hw, hp⟩ := admits_iff.mp hadmits
    refine ⟨fun j => ?_, fun j => ?_, fun j => ?_, by simp [hw]⟩
    · by_cases hj : j = i
      · simp [hj, h.readers i, hi]
      · simp [hj, h.readers j]
    · by_cases hj : j = i
      · simp [hj]
      · have hnone : mode j ≠ .waits := fun hwait => by
          simpa [hp] using (h.pending j).mpr hwait
        simp [hj, hnone, Ne.symm hj]
    · by_cases hj : j = i
      · simp [hj, hw]
      · simp [hj, h.writer j]
  · cases hm

theorem Agrees.lock (h : Agrees m mode) (hm : m.lock i = some m') :
    Agrees m' (Function.update mode i .writes) := by
  unfold RwMutex.lock at hm
  split at hm
  · next hfree =>
    cases hm
    obtain ⟨hp, hempty⟩ := hfree
    have hw : m.writer = none := by
      by_contra hsome
      have hnone := (h.alone (Option.isSome_iff_ne_none.mpr hsome)).2
      rw [hp] at hnone
      cases hnone
    refine ⟨fun j => ?_, fun j => ?_, fun j => ?_, fun _ => ⟨hempty, rfl⟩⟩
    · have hnot : mode j ≠ .reads := fun hr => by
        simpa [hempty] using (h.readers j).mpr hr
      by_cases hj : j = i
      · simp [hj, hempty]
      · simp [hj, hempty, hnot]
    · by_cases hj : j = i
      · simp [hj]
      · have hnot : mode j ≠ .waits := fun hwait => by
          have hpj := (h.pending j).mpr hwait
          rw [hp] at hpj
          exact hj (Option.some.inj hpj).symm
        simp [hj, hnot]
    · by_cases hj : j = i
      · simp [hj]
      · have hnot : mode j ≠ .writes := fun hwrite => by
          simpa [hw] using (h.writer j).mpr hwrite
        simp [hj, hnot, Ne.symm hj]
  · cases hm

theorem Agrees.unlock (h : Agrees m mode) (hi : mode i = .writes) :
    Agrees m.unlock (Function.update mode i .outside) := by
  have hwi := (h.writer i).mpr hi
  obtain ⟨hempty, hp⟩ := h.alone (by rw [hwi]; rfl)
  refine ⟨fun j => ?_, fun j => ?_, fun j => ?_, by simp [RwMutex.unlock]⟩
  · by_cases hj : j = i
    · simp [hj, RwMutex.unlock, hempty]
    · simp [hj, RwMutex.unlock, h.readers j]
  · by_cases hj : j = i
    · simp [hj, RwMutex.unlock, hp]
    · simp [hj, RwMutex.unlock, h.pending j]
  · by_cases hj : j = i
    · simp [hj, RwMutex.unlock]
    · have hnot : mode j ≠ .writes := fun hwrite => by
        have hwj := (h.writer j).mpr hwrite
        rw [hwi] at hwj
        exact hj (Option.some.inj hwj).symm
      simp [hj, RwMutex.unlock, hnot]

/-- With no thread inside, a writer that waits gets the lock, and if none waits
every thread is outside and can take it for reading or announce itself. -/
theorem Agrees.available (h : Agrees m mode) (hreads : ∀ j, mode j ≠ .reads)
    (hwrites : ∀ j, mode j ≠ .writes) :
    (∃ j, mode j = .waits ∧ (m.lock j).isSome) ∨
      ∀ j, mode j = .outside ∧ (m.rLock j).isSome ∧ (m.announce j).isSome := by
  have hempty : m.readers = ∅ :=
    Finset.eq_empty_of_forall_notMem fun j hj => hreads j ((h.readers j).mp hj)
  have hw : m.writer = none := by
    cases hwriter : m.writer with
    | none => rfl
    | some j => exact absurd ((h.writer j).mp hwriter) (hwrites j)
  cases hp : m.pending with
  | some j => exact .inl ⟨j, (h.pending j).mp hp, by simp [RwMutex.lock, hp, hempty]⟩
  | none =>
    have hadmits := admits_iff.mpr ⟨hw, hp⟩
    refine .inr fun j => ⟨?_, by simp [RwMutex.rLock, hadmits], by simp [RwMutex.announce, hadmits]⟩
    cases hmode : mode j with
    | outside => rfl
    | reads => exact absurd hmode (hreads j)
    | writes => exact absurd hmode (hwrites j)
    | waits =>
      have hpj := (h.pending j).mpr hmode
      rw [hp] at hpj
      cases hpj

end

end K8sSched.Lib.RwLock
