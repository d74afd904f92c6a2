import K8sSched.Bpf.Params
import K8sSched.Lib.WrapClock
import K8sSched.Lib.FifoQueue
import Mathlib.Logic.Function.Basic

/-! # The sched_ext callbacks

`bpf/k8s_sched.bpf.c`, from `k8s_select_cpu` to `k8s_enable`, over the state
they share: the global clock, the maps, the scheduling entities of the tasks
and the two dispatch queues of one CPU. The callbacks are written over a type
`V` of virtual times: `BitVec 64` is the code, `Int` its ideal. -/

namespace K8sSched.Bpf.Ops
open K8sSched.Bpf.Params K8sSched.Lib.WrapClock K8sSched.Lib.FifoQueue

/-- `vtime_before`, the comparison of the code's clock. -/
def vtimeBefore (a b : U64) : Bool := (a - b).toInt < 0

theorem before_eq_vtimeBefore (a b : U64) : VClock.before a b = vtimeBefore a b := rfl

/-- The fields of `p->scx` the scheduler uses. -/
structure ScxEntity (V : Type) where
  dsqVtime : V
  slice : U64

/-- `struct sched_stats`, the entry of the one CPU. -/
structure SchedStats where
  enqueues : U64
  localDispatches : U64
  budgetCapped : U64
  defaults : U64
  deriving DecidableEq, Repr

/-- The scheduler's state. `dsq` is `K8S_DSQ_ID` and `localDsq` the local queue
of the CPU, both in the order of insertion. -/
structure Sched (V τ : Type) where
  vtimeNow : V
  maps : ParamMaps
  stats : SchedStats
  task : τ → Task
  scx : τ → ScxEntity V
  dsq : List τ
  localDsq : List τ

variable {V τ : Type} [VClock V] [DecidableEq τ]

/-- The parameters the maps hold for a task. -/
def Sched.params (s : Sched V τ) (p : τ) : TaskParams := (lookupTaskParams s.maps (s.task p)).2

/-- The slice a task is given when it is inserted. -/
def Sched.sliceOf (s : Sched V τ) (p : τ) : U64 := taskSlice (s.params p)

/-! ## Kernel functions -/

/-- `scx_dsq_insert` into `SCX_DSQ_LOCAL`. -/
def scxDsqInsert (s : Sched V τ) (p : τ) (slice : U64) : Sched V τ :=
  { s with scx := Function.update s.scx p { s.scx p with slice := slice }
           localDsq := s.localDsq ++ [p] }

/-- `scx_dsq_insert_vtime` into `K8S_DSQ_ID`: the kernel stores the virtual time
in the task. -/
def scxDsqInsertVtime (s : Sched V τ) (p : τ) (slice : U64) (vtime : V) : Sched V τ :=
  { s with scx := Function.update s.scx p ⟨vtime, slice⟩
           dsq := s.dsq ++ [p] }

/-- The task `scx_dsq_move_to_local` moves: the least virtual time in the order
the kernel compares them, first-in first-out on ties. -/
def Sched.lowestVtime (s : Sched V τ) : Option τ :=
  lowest (fun p q => VClock.before (s.scx p).dsqVtime (s.scx q).dsqVtime) s.dsq

/-- `scx_dsq_move_to_local(K8S_DSQ_ID)`. -/
def scxDsqMoveToLocal (s : Sched V τ) : Sched V τ :=
  match s.lowestVtime with
  | none => s
  | some p => { s with dsq := s.dsq.erase p, localDsq := s.localDsq ++ [p] }

/-! ## Callbacks -/

/-- `isIdle` is what `scx_bpf_select_cpu_dfl` reports. -/
def k8sSelectCpu (s : Sched V τ) (p : τ) (isIdle : Bool) : Sched V τ :=
  if isIdle then
    let slice := taskSlice (lookupTaskParams s.maps (s.task p)).2
    let s' := scxDsqInsert s p slice
    { s' with stats := { s'.stats with
        localDispatches := s'.stats.localDispatches + 1
        budgetCapped := if slice < defaultSliceNs then s'.stats.budgetCapped + 1
          else s'.stats.budgetCapped } }
  else s

/-- The wakeup clamp of `k8s_enqueue`: at most one default slice behind the
global clock. -/
def clampVtime (vtimeNow vtime : V) : V :=
  if VClock.before vtime (VClock.sub vtimeNow defaultSliceNs)
  then VClock.sub vtimeNow defaultSliceNs else vtime

def k8sEnqueue (s : Sched V τ) (p : τ) : Sched V τ :=
  let (found, tp) := lookupTaskParams s.maps (s.task p)
  let slice := taskSlice tp
  let s' := scxDsqInsertVtime s p slice (clampVtime s.vtimeNow (s.scx p).dsqVtime)
  { s' with stats := { s'.stats with
      enqueues := s'.stats.enqueues + 1
      budgetCapped := if slice < defaultSliceNs then s'.stats.budgetCapped + 1
        else s'.stats.budgetCapped
      defaults := if !found then s'.stats.defaults + 1 else s'.stats.defaults } }

def k8sDispatch (s : Sched V τ) : Sched V τ := scxDsqMoveToLocal s

def k8sRunning (s : Sched V τ) (p : τ) : Sched V τ :=
  if VClock.before s.vtimeNow (s.scx p).dsqVtime then { s with vtimeNow := (s.scx p).dsqVtime }
  else s

/-- The virtual time `k8s_stopping` adds: the consumed part of the slice, as
reconstructed from the parameters of the moment, over the weight. -/
def stoppingCharge (tp : TaskParams) (remaining : U64) : U64 :=
  let slice := taskSlice tp
  let used := slice - remaining
  -- guard against underflow
  let used := if used > slice then slice else used
  (used * maxPrioWeight) / (if tp.weight ≠ 0 then tp.weight else 1)

def k8sStopping (s : Sched V τ) (p : τ) : Sched V τ :=
  let tp := (lookupTaskParams s.maps (s.task p)).2
  { s with scx := Function.update s.scx p { s.scx p with
      dsqVtime := VClock.add (s.scx p).dsqVtime (stoppingCharge tp (s.scx p).slice) } }

def k8sEnable (s : Sched V τ) (p : τ) : Sched V τ :=
  { s with scx := Function.update s.scx p { s.scx p with dsqVtime := s.vtimeNow } }

/-- The scheduler as loaded, with the queue `k8s_init` creates: the clock and
the counters are zero, and so are the entities of tasks not yet enabled. -/
def k8sInit (maps : ParamMaps) (task : τ → Task) : Sched U64 τ where
  vtimeNow := 0
  maps := maps
  stats := ⟨0, 0, 0, 0⟩
  task := task
  scx := fun _ => ⟨0, 0⟩
  dsq := []
  localDsq := []

/-! ## What the callbacks change and leave alone -/

section Frame

variable (s : Sched V τ) (p : τ)

section SelectCpu

omit [VClock V]

@[simp] theorem k8sSelectCpu_vtimeNow : (k8sSelectCpu s p true).vtimeNow = s.vtimeNow := rfl
@[simp] theorem k8sSelectCpu_maps : (k8sSelectCpu s p true).maps = s.maps := rfl
@[simp] theorem k8sSelectCpu_task : (k8sSelectCpu s p true).task = s.task := rfl
@[simp] theorem k8sSelectCpu_scx : (k8sSelectCpu s p true).scx =
    Function.update s.scx p { s.scx p with slice := s.sliceOf p } := rfl
@[simp] theorem k8sSelectCpu_dsq : (k8sSelectCpu s p true).dsq = s.dsq := rfl
@[simp] theorem k8sSelectCpu_localDsq :
    (k8sSelectCpu s p true).localDsq = s.localDsq ++ [p] := rfl

end SelectCpu

@[simp] theorem k8sEnqueue_vtimeNow : (k8sEnqueue s p).vtimeNow = s.vtimeNow := rfl
@[simp] theorem k8sEnqueue_maps : (k8sEnqueue s p).maps = s.maps := rfl
@[simp] theorem k8sEnqueue_task : (k8sEnqueue s p).task = s.task := rfl
@[simp] theorem k8sEnqueue_scx : (k8sEnqueue s p).scx = Function.update s.scx p
    ⟨clampVtime s.vtimeNow (s.scx p).dsqVtime, s.sliceOf p⟩ := rfl
@[simp] theorem k8sEnqueue_dsq : (k8sEnqueue s p).dsq = s.dsq ++ [p] := rfl
@[simp] theorem k8sEnqueue_localDsq : (k8sEnqueue s p).localDsq = s.localDsq := rfl

@[simp] theorem k8sStopping_vtimeNow : (k8sStopping s p).vtimeNow = s.vtimeNow := rfl
@[simp] theorem k8sStopping_maps : (k8sStopping s p).maps = s.maps := rfl
@[simp] theorem k8sStopping_task : (k8sStopping s p).task = s.task := rfl
@[simp] theorem k8sStopping_scx : (k8sStopping s p).scx = Function.update s.scx p
    ⟨VClock.add (s.scx p).dsqVtime (stoppingCharge (s.params p) (s.scx p).slice),
      (s.scx p).slice⟩ := rfl
@[simp] theorem k8sStopping_dsq : (k8sStopping s p).dsq = s.dsq := rfl
@[simp] theorem k8sStopping_localDsq : (k8sStopping s p).localDsq = s.localDsq := rfl

section Running

omit [DecidableEq τ]

theorem k8sRunning_vtimeNow : (k8sRunning s p).vtimeNow =
    if VClock.before s.vtimeNow (s.scx p).dsqVtime then (s.scx p).dsqVtime else s.vtimeNow := by
  unfold k8sRunning; split <;> rfl
@[simp] theorem k8sRunning_maps : (k8sRunning s p).maps = s.maps := by
  unfold k8sRunning; split <;> rfl
@[simp] theorem k8sRunning_task : (k8sRunning s p).task = s.task := by
  unfold k8sRunning; split <;> rfl
@[simp] theorem k8sRunning_scx : (k8sRunning s p).scx = s.scx := by
  unfold k8sRunning; split <;> rfl
@[simp] theorem k8sRunning_dsq : (k8sRunning s p).dsq = s.dsq := by
  unfold k8sRunning; split <;> rfl
@[simp] theorem k8sRunning_localDsq : (k8sRunning s p).localDsq = s.localDsq := by
  unfold k8sRunning; split <;> rfl

end Running

section Enable

omit [VClock V]

@[simp] theorem k8sEnable_vtimeNow : (k8sEnable s p).vtimeNow = s.vtimeNow := rfl
@[simp] theorem k8sEnable_maps : (k8sEnable s p).maps = s.maps := rfl
@[simp] theorem k8sEnable_task : (k8sEnable s p).task = s.task := rfl
@[simp] theorem k8sEnable_scx : (k8sEnable s p).scx =
    Function.update s.scx p { s.scx p with dsqVtime := s.vtimeNow } := rfl
@[simp] theorem k8sEnable_dsq : (k8sEnable s p).dsq = s.dsq := rfl
@[simp] theorem k8sEnable_localDsq : (k8sEnable s p).localDsq = s.localDsq := rfl

end Enable

end Frame

omit [VClock V] [DecidableEq τ] in
/-- The parameters of a task depend on the maps and on its identity only. -/
theorem params_congr {V' : Type} {s : Sched V τ} {s' : Sched V' τ} (hm : s'.maps = s.maps)
    (ht : s'.task = s.task) (p : τ) : s'.params p = s.params p := by
  unfold Sched.params
  rw [hm, ht]

omit [VClock V] [DecidableEq τ] in
theorem sliceOf_congr {V' : Type} {s : Sched V τ} {s' : Sched V' τ} (hm : s'.maps = s.maps)
    (ht : s'.task = s.task) (p : τ) : s'.sliceOf p = s.sliceOf p := by
  unfold Sched.sliceOf
  rw [params_congr hm ht]

/-! ## The charge -/

theorem used_le (slice remaining : U64) :
    (if slice - remaining > slice then slice else slice - remaining).toNat ≤ slice.toNat := by
  split
  · exact le_rfl
  · next h =>
    have h := mt BitVec.lt_def.mpr h
    omega

theorem weight_pos (w : U64) : 1 ≤ (if w ≠ 0 then w else 1 : U64).toNat := by
  split
  · next h => exact toNat_pos h
  · decide

/-- No arithmetic of the charge overflows. -/
theorem stoppingCharge_toNat (tp : TaskParams) (r : U64) :
    (stoppingCharge tp r).toNat =
      (if taskSlice tp - r > taskSlice tp then taskSlice tp else taskSlice tp - r).toNat * 10000 /
        (if tp.weight ≠ 0 then tp.weight else 1 : U64).toNat := by
  have hu := used_le (taskSlice tp) r
  have hs := taskSlice_le tp
  unfold stoppingCharge
  rw [BitVec.toNat_udiv, BitVec.toNat_mul, Nat.mod_eq_of_lt]
  · rfl
  · have hm : maxPrioWeight.toNat = 10000 := rfl
    rw [hm]
    omega

/-- With slice left, the charge is the consumed part over the weight. -/
theorem stoppingCharge_of_le {tp : TaskParams} {r : U64} (h : r.toNat ≤ (taskSlice tp).toNat)
    (hw : tp.weight ≠ 0) :
    (stoppingCharge tp r).toNat = ((taskSlice tp).toNat - r.toNat) * 10000 / tp.weight.toNat := by
  have hu : (taskSlice tp - r).toNat = (taskSlice tp).toNat - r.toNat :=
    BitVec.toNat_sub_of_le (BitVec.le_def.mpr h)
  have hg : ¬ (taskSlice tp - r > taskSlice tp) := by
    intro hlt
    have := BitVec.lt_def.mp hlt
    omega
  rw [stoppingCharge_toNat, if_neg hg, if_pos hw, hu]

/-- A weight of at most `MAX_PRIO_WEIGHT` never charges less than the time used. -/
theorem one_le_stoppingCharge {tp : TaskParams} {r : U64} (h : r.toNat < (taskSlice tp).toNat)
    (hw : tp.weight.toNat ≤ 10000) : 1 ≤ (stoppingCharge tp r).toNat := by
  have hu : (taskSlice tp - r).toNat = (taskSlice tp).toNat - r.toNat :=
    BitVec.toNat_sub_of_le (BitVec.le_def.mpr h.le)
  have hg : ¬ (taskSlice tp - r > taskSlice tp) := by
    intro hlt
    have := BitVec.lt_def.mp hlt
    omega
  have hle : (if tp.weight ≠ 0 then tp.weight else 1 : U64).toNat ≤ 10000 := by
    split
    · exact hw
    · decide
  rw [stoppingCharge_toNat, if_neg hg, hu, Nat.one_le_div_iff (weight_pos _)]
  omega

theorem stoppingCharge_le (tp : TaskParams) (r : U64) :
    (stoppingCharge tp r).toNat ≤ 50000000000 := by
  rw [stoppingCharge_toNat]
  have hu := used_le (taskSlice tp) r
  have hs := taskSlice_le tp
  calc _ ≤ (if taskSlice tp - r > taskSlice tp then taskSlice tp else taskSlice tp - r).toNat * 10000 :=
        Nat.div_le_self _ _
    _ ≤ 50000000000 := by omega

end K8sSched.Bpf.Ops
