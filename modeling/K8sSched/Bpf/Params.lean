import Mathlib.Data.Finmap

/-! # The parameter maps and what the kernel reads from them

`bpf/k8s_sched.bpf.c`, from the maps to `task_slice`. The two hash maps are
finite maps from their keys; their `max_entries` shows only as a failing `Put`
in userspace, since the kernel side never writes them. -/

namespace K8sSched.Bpf.Params

abbrev U32 := BitVec 32
abbrev U64 := BitVec 64

-- membership in lists of keys is decided through these
instance : LawfulBEq U32 := instLawfulBEq
instance : LawfulBEq U64 := instLawfulBEq

/-- `struct task_params`. -/
structure TaskParams where
  weight : U64
  budgetNs : U64
  deriving DecidableEq, Repr

/-- The maps `task_params` (by tgid) and `cgroup_params` (by cgroup ID). -/
structure ParamMaps where
  taskParams : Finmap fun _ : U32 => TaskParams
  cgroupParams : Finmap fun _ : U64 => TaskParams
  deriving DecidableEq

def maxPrioWeight : U64 := 10000
def defaultWeight : U64 := 1000
def defaultSliceNs : U64 := 5000000
/-- `SCX_SLICE_DFL`, the slice the kernel gives a task it keeps on the CPU. -/
def scxSliceDfl : U64 := 20000000

/-- What the scheduler reads of a `struct task_struct`, its `scx` part apart:
the process ID, and the ID of the cgroup `scx_bpf_task_cgroup` returns, if any. -/
structure Task where
  tgid : U32
  cgroup : Option U64
  deriving DecidableEq, Repr

/-- Zero when the cgroup cannot be determined. -/
def taskCgroupId (p : Task) : U64 := p.cgroup.getD 0

def lookupTaskParams (m : ParamMaps) (p : Task) : Bool × TaskParams :=
  match m.taskParams.lookup p.tgid with
  | some t => (true, t)
  | none =>
    let cgid := taskCgroupId p
    if cgid ≠ 0 then
      match m.cgroupParams.lookup cgid with
      | some t => (true, t)
      | none => (false, ⟨defaultWeight, 0⟩)
    else (false, ⟨defaultWeight, 0⟩)

section Lookup

variable {m : ParamMaps} {p : Task} {tp : TaskParams}

theorem lookupTaskParams_of_task
    (h : m.taskParams.lookup p.tgid = some tp) : lookupTaskParams m p = (true, tp) := by
  simp [lookupTaskParams, h]

theorem lookupTaskParams_of_cgroup
    (h : m.taskParams.lookup p.tgid = none) (h0 : taskCgroupId p ≠ 0)
    (hc : m.cgroupParams.lookup (taskCgroupId p) = some tp) :
    lookupTaskParams m p = (true, tp) := by
  simp only [lookupTaskParams, h, hc]
  exact if_pos h0

theorem lookupTaskParams_of_neither
    (h : m.taskParams.lookup p.tgid = none) (h0 : taskCgroupId p = 0) :
    lookupTaskParams m p = (false, ⟨defaultWeight, 0⟩) := by
  simp only [lookupTaskParams, h]
  exact if_neg fun hne => hne h0

/-- Without an entry for the process its cgroup decides. -/
theorem lookupTaskParams_iff (h : m.taskParams.lookup p.tgid = none) :
    lookupTaskParams m p = (true, tp) ↔
      taskCgroupId p ≠ 0 ∧ m.cgroupParams.lookup (taskCgroupId p) = some tp := by
  simp only [lookupTaskParams, h]
  by_cases h0 : taskCgroupId p = 0
  · simp [h0]
  · rw [if_pos h0]
    cases m.cgroupParams.lookup (taskCgroupId p) with
    | none => simp
    | some tp' =>
      rw [Prod.mk.injEq, Option.some.injEq]
      exact ⟨fun heq => ⟨h0, heq.2⟩, fun heq => ⟨rfl, heq.2⟩⟩

/-- What is found is in one of the maps. -/
theorem lookupTaskParams_cases (m : ParamMaps) (p : Task) :
    (lookupTaskParams m p).2 = ⟨defaultWeight, 0⟩ ∨
      m.taskParams.lookup p.tgid = some (lookupTaskParams m p).2 ∨
      m.cgroupParams.lookup (taskCgroupId p) = some (lookupTaskParams m p).2 := by
  unfold lookupTaskParams
  split
  · next h => exact .inr (.inl h)
  · simp only
    split
    · split
      · next h => exact .inr (.inr h)
      · exact .inl rfl
    · exact .inl rfl

end Lookup

/-- A budget can only shorten the slice; zero means none. -/
def taskSlice (tp : TaskParams) : U64 :=
  if tp.budgetNs ≠ 0 ∧ tp.budgetNs < defaultSliceNs then tp.budgetNs else defaultSliceNs

theorem toNat_pos {x : U64} (h : x ≠ 0) : 1 ≤ x.toNat :=
  Nat.pos_of_ne_zero fun h0 => h (BitVec.eq_of_toNat_eq (by simpa using h0))

theorem taskSlice_pos (tp : TaskParams) : 1 ≤ (taskSlice tp).toNat := by
  unfold taskSlice
  split
  · next h => exact toNat_pos h.1
  · decide

theorem taskSlice_le (tp : TaskParams) : (taskSlice tp).toNat ≤ 5000000 := by
  unfold taskSlice
  split
  · next h => exact (BitVec.lt_def.mp h.2).le
  · decide

end K8sSched.Bpf.Params
