import K8sSched.Agent.PidReuse
import K8sSched.Bpf.SmpPlaces

/-! # The agent and the scheduler on one node

The agent's calls and sweeps, the directories and processes of the node, and the
callbacks of the scheduler on its CPUs, in any order: the callbacks read the maps
the agent writes, under the PIDs and cgroup IDs the processes have at that
moment. Every slice a task is given and every charge for what it used is computed
from the defaults or from parameters the agent wrote for the task's own pod, also
where the agent writes between the lookup of `k8s_enqueue` and its insertion. -/

namespace K8sSched.Agent.SchedNode
open K8sSched.Bpf K8sSched.Bpf.Params K8sSched.Bpf.Ops K8sSched.Bpf.Smp K8sSched.Bpf.SmpPlaces
open K8sSched.Agent.CgroupFs K8sSched.Agent.Host K8sSched.Agent.PidReuse K8sSched.Lib.Runs
open K8sSched.Lib.GoMap (lookup_insert_eq_some lookup_erase_eq_some)

structure Node (κ τ : Type) where
  host : Host.Node
  /-- The agent's calls so far. -/
  log : List Host.Event
  sched : System κ τ
  /-- The process of a task. -/
  procOf : τ → Option U32

inductive Action (κ τ : Type) where
  | host (a : Host.Action)
  /-- A new task of a process comes under the scheduler. -/
  | spawn (c : κ) (x : τ) (pid : U32)
  | sched (a : Smp.Action κ τ)

variable {κ τ : Type} [DecidableEq κ] [DecidableEq τ]

/-- The scheduler sees the maps and the processes as they are now. -/
def Node.sync (n : Node κ τ) : Node κ τ :=
  { n with sched := { n.sched with
      maps := n.host.maps.kernel
      task := fun x => ((n.procOf x).bind fun pid =>
        (n.host.procs.lookup pid).map (taskOf pid)).getD (n.sched.task x) } }

/-- A process whose tasks are on a queue or a CPU does not exit. -/
def Node.busy (n : Node κ τ) : Host.Action → Bool
  | .exit pid => ¬ (n.sched.enabled.filter fun x => n.procOf x = some pid) ⊆ n.sched.asleep
  | _ => false

/-- The tasks of a process that exits go with it. -/
def Node.left (n : Node κ τ) : Host.Action → τ → Option U32
  | .exit pid => fun x => if n.procOf x = some pid then none else n.procOf x
  | _ => n.procOf

/-- What the CPUs do by themselves; a task without a process is not woken. -/
def Node.runs (n : Node κ τ) : Smp.Action κ τ → Bool
  | .enable _ _ | .setMaps _ => false
  | .wake _ x _ => (n.procOf x).isSome
  | _ => true

def step (n : Node κ τ) : Action κ τ → Option (Node κ τ × List (Smp.Event κ τ))
  | .host a =>
    if n.busy a then none
    else (Host.step n.host a).map fun r =>
      ({ n with host := r.1, log := n.log ++ r.2, procOf := n.left a }.sync, [])
  | .spawn c x pid =>
    if pid ∈ n.host.procs then
      (Smp.step n.sched (.enable c x)).map fun r =>
        ({ n with sched := r.1, procOf := Function.update n.procOf x (some pid) }.sync, r.2)
    else none
  | .sched a =>
    if n.runs a then (Smp.step n.sched a).map fun r => ({ n with sched := r.1 }, r.2) else none

/-- The agent has opened its maps, which are empty, and the scheduler is loaded. -/
def boot (tree : CgroupTree) (taskParamsOpen cgroupParamsOpen : Bool) (task : τ → Task)
    (allowed : τ → κ → Bool) : Node κ τ where
  host := Host.boot tree ⟨∅, ∅⟩ taskParamsOpen cgroupParamsOpen
  log := []
  sched := Smp.boot ⟨∅, ∅⟩ task allowed
  procOf := fun _ => none

inductive Does (n : Node κ τ) : Action κ τ → Node κ τ → List (Smp.Event κ τ) → Prop
  | host {a : Host.Action} {t : Host.Node} {es : List Host.Event} (hbusy : n.busy a = false)
      (hd : Host.Does n.host a t es) :
      Does n (.host a) { n with host := t, log := n.log ++ es, procOf := n.left a }.sync []
  | spawn {c : κ} {x : τ} {pid : U32} {t : System κ τ} {es : List (Smp.Event κ τ)}
      (hpid : pid ∈ n.host.procs) (hd : Smp.Does n.sched (.enable c x) t es) :
      Does n (.spawn c x pid)
        { n with sched := t, procOf := Function.update n.procOf x (some pid) }.sync es
  | sched {a : Smp.Action κ τ} {t : System κ τ} {es : List (Smp.Event κ τ)} (hruns : n.runs a)
      (hd : Smp.Does n.sched a t es) : Does n (.sched a) { n with sched := t } es

theorem step_does {n m : Node κ τ} {a : Action κ τ} {es : List (Smp.Event κ τ)}
    (h : step n a = some (m, es)) : Does n a m es := by
  cases a with
  | host a =>
    simp only [step] at h
    split at h
    · cases h
    · next hbusy =>
      obtain ⟨⟨t, es'⟩, hs, heq⟩ := Option.map_eq_some_iff.mp h
      cases heq
      exact .host (by simpa using hbusy) (Host.step_does hs)
  | spawn c x pid =>
    simp only [step] at h
    split at h
    · next hpid =>
      obtain ⟨⟨t, es'⟩, hs, heq⟩ := Option.map_eq_some_iff.mp h
      cases heq
      exact .spawn hpid (Smp.step_does hs)
    · cases h
  | sched a =>
    simp only [step] at h
    split at h
    · next hruns =>
      obtain ⟨⟨t, es'⟩, hs, heq⟩ := Option.map_eq_some_iff.mp h
      cases heq
      exact .sched hruns (Smp.step_does hs)
    · cases h

/-- What a callback holds between its lookup and its insertion. -/
def heldParams : Pc τ → Option (τ × TaskParams)
  | .clamp x _ tp _ | .insert x _ tp _ _ => some (x, tp)
  | _ => none

section

variable (taskParamsOpen cgroupParamsOpen : Bool)

/-- The agent's steps give no PID with another pod's entry to a process and write
none of another pod's process. -/
def CleanHost (n : Node κ τ) : Action κ τ → Prop
  | .host a => Clean taskParamsOpen cgroupParamsOpen (n.host, n.log) a
  | _ => True

/-- The parameters suit the task: if its process is a pod's, they are the defaults
or were written for the pod. -/
def Suits (n : Node κ τ) (x : τ) (tp : TaskParams) : Prop :=
  ∃ pid p, n.procOf x = some pid ∧ n.host.procs.lookup pid = some p ∧
    ∀ uid, p.pod = some uid → Given taskParamsOpen cgroupParamsOpen n.log uid tp

/-- The slice or the charge is that of parameters that suit the task. -/
def Accords (n : Node κ τ) : Smp.Event κ τ → Prop
  | .inserted _ x _ slice _ | .direct _ _ x slice =>
    ∃ tp, Suits taskParamsOpen cgroupParamsOpen n x tp ∧ slice = taskSlice tp
  | .stopped _ x charge =>
    ∃ tp, Suits taskParamsOpen cgroupParamsOpen n x tp ∧
      charge = stoppingCharge tp (n.sched.scx x).slice
  | _ => True

structure Inv (n : Node κ τ) : Prop where
  agent : PidReuse.Inv taskParamsOpen cgroupParamsOpen (n.host, n.log)
  entries : OwnEntries taskParamsOpen cgroupParamsOpen (n.host, n.log)
  wf : SmpPlaces.Wf n.sched
  maps : n.sched.maps = n.host.maps.kernel
  task : ∀ x pid, n.procOf x = some pid →
    ∃ p, n.host.procs.lookup pid = some p ∧ n.sched.task x = taskOf pid p
  awake : ∀ x ∈ n.sched.enabled, x ∉ n.sched.asleep → (n.procOf x).isSome
  held : ∀ c x tp, heldParams (n.sched.pc c) = some (x, tp) →
    Suits taskParamsOpen cgroupParamsOpen n x tp

end

/-! ## The scheduler -/

section Sched

variable {s t : System κ τ} {a : Smp.Action κ τ} {es : List (Smp.Event κ τ)}

omit [DecidableEq τ] in
theorem heldParams_after (pick : Bool) :
    heldParams (if pick then .pick else .outside : Pc τ) = none := by
  cases pick <;> rfl

omit [DecidableEq κ] [DecidableEq τ] in
theorem at_of_held {c : κ} {x : τ} {tp : TaskParams} (h : heldParams (s.pc c) = some (x, tp)) :
    At s x (.enqueued c) := by
  unfold heldParams at h
  split at h
  · next heq => cases h; rw [At, heq]; rfl
  · next heq => cases h; rw [At, heq]; rfl
  · cases h

/-- What a callback holds it has held before or has just looked up. -/
theorem does_held (hd : Smp.Does s a t es) {c : κ} {x : τ} {tp : TaskParams}
    (h : heldParams (t.pc c) = some (x, tp)) :
    heldParams (s.pc c) = some (x, tp) ∨ At s x (.enqueued c) ∧ tp = s.params x := by
  have hgoto : ∀ {c' : κ} {pc : Pc τ}, t.pc = Function.update s.pc c' pc →
      heldParams pc = none → heldParams (s.pc c) = some (x, tp) := by
    intro c' pc heq hpc
    rw [heq] at h
    by_cases hc : c = c'
    · subst hc
      rw [Function.update_self, hpc] at h
      cases h
    · rwa [Function.update_of_ne hc] at h
  cases hd with
  | enable | wakeLocal | run | sleep | preemptKeep | refill | setMaps => exact .inl h
  | wakeQueue | balanceLocal | balanceMoved | preemptQueue | expireLocal | expireMoved | pick
  | ahead | behind | store => exact .inl (hgoto rfl rfl)
  | insert => exact .inl (hgoto rfl (heldParams_after _))
  | @lookup c' p pick hpc =>
    by_cases hc : c = c'
    · subst hc
      simp only [goto_pc, Function.update_self, heldParams, Option.some.injEq,
        Prod.mk.injEq] at h
      obtain ⟨rfl, rfl⟩ := h
      exact .inr ⟨by rw [At, hpc]; rfl, rfl⟩
    · exact .inl (by simpa [hc] using h)
  | @clamp c' p found tp' pick hpc =>
    by_cases hc : c = c'
    · subst hc
      simp only [goto_pc, Function.update_self, heldParams] at h
      exact .inl (by rw [hpc]; exact h)
    · exact .inl (by simpa [hc] using h)

theorem does_enabled (hd : Smp.Does s a t es) (ha : ∀ c p, a ≠ .enable c p) :
    t.enabled = s.enabled := by
  cases hd with
  | enable => exact absurd rfl (ha _ _)
  | _ => rfl

/-- Only tasks that are woken leave their sleep. -/
theorem does_asleep (hd : Smp.Does s a t es) {x : τ} (hs : x ∈ s.asleep) (ht : x ∉ t.asleep) :
    ∃ c idle, a = .wake c x idle := by
  cases hd with
  | @wakeQueue c p hout hp =>
    by_cases hx : x = p
    · exact ⟨c, none, by rw [hx]⟩
    · exact absurd (Finset.mem_erase.mpr ⟨hx, hs⟩) ht
  | @wakeLocal c d p hout hp =>
    by_cases hx : x = p
    · exact ⟨c, some d, by rw [hx]⟩
    · exact absurd (Finset.mem_erase.mpr ⟨hx, hs⟩) ht
  | enable | sleep => exact absurd (Finset.mem_insert_of_mem hs) ht
  | _ => exact absurd hs ht

end Sched

/-! ## The node -/

section Node

variable {taskParamsOpen cgroupParamsOpen : Bool} {n m : Node κ τ} {x : τ} {tp : TaskParams}

/-- A process that does not exit stays with its pod. -/
theorem host_proc {s t : Host.Node} {a : Host.Action} {es : List Host.Event}
    (hd : Host.Does s a t es) {pid : U32} {p : Proc} (ha : a ≠ .exit pid)
    (hp : s.procs.lookup pid = some p) :
    ∃ q, t.procs.lookup pid = some q ∧ q.pod = p.pod := by
  cases hd with
  | @start pid' pod dir hfree =>
    have hne : pid ≠ pid' := by
      intro heq
      exact hfree (heq ▸ Finmap.mem_of_lookup_eq_some hp)
    exact ⟨p, (Finmap.lookup_insert_of_ne _ hne).trans hp, rfl⟩
  | @exit pid' =>
    have hne : pid ≠ pid' := fun heq => ha (heq ▸ rfl)
    exact ⟨p, (Finmap.lookup_erase_ne hne).trans hp, rfl⟩
  | @migrate pid' q dir hq =>
    by_cases heq : pid = pid'
    · subst heq
      rw [hp] at hq
      cases hq
      exact ⟨_, Finmap.lookup_insert _, rfl⟩
    · exact ⟨p, (Finmap.lookup_insert_of_ne _ heq).trans hp, rfl⟩
  | _ => exact ⟨p, hp, rfl⟩

omit [DecidableEq κ] [DecidableEq τ] in
theorem left_eq_some {a : Host.Action} {pid : U32} (h : n.left a x = some pid) :
    n.procOf x = some pid ∧ a ≠ .exit pid := by
  cases a with
  | exit pid' =>
    simp only [Node.left] at h
    split at h
    · cases h
    · next hne =>
      refine ⟨h, fun heq => hne ?_⟩
      cases heq
      exact h
  | _ => exact ⟨h, by simp⟩

omit [DecidableEq κ] in
/-- A task that is not asleep keeps its process. -/
theorem left_of_awake {a : Host.Action} (hbusy : n.busy a = false) (hx : x ∈ n.sched.enabled)
    (hs : x ∉ n.sched.asleep) : n.left a x = n.procOf x := by
  cases a with
  | exit pid =>
    simp only [Node.busy, decide_eq_false_iff_not, not_not] at hbusy
    refine if_neg fun hpid => hs (hbusy ?_)
    exact Finset.mem_filter.mpr ⟨hx, hpid⟩
  | _ => rfl

omit [DecidableEq κ] [DecidableEq τ] in
theorem wf_sync (h : SmpPlaces.Wf n.sched) : SmpPlaces.Wf n.sync.sched := by
  obtain ⟨place, hfits⟩ := h.fits
  exact ⟨⟨place, hfits.at_iff, hfits.dsq, hfits.localDsq⟩, h.pcOk, h.allowed, h.slices⟩

omit [DecidableEq κ] [DecidableEq τ] in
/-- The parameters a lookup finds now. -/
theorem Inv.suits (h : Inv taskParamsOpen cgroupParamsOpen n) (hx : (n.procOf x).isSome) :
    Suits taskParamsOpen cgroupParamsOpen n x (n.sched.params x) := by
  obtain ⟨pid, hpid⟩ := Option.isSome_iff_exists.mp hx
  obtain ⟨p, hp, htask⟩ := h.task x pid hpid
  refine ⟨pid, p, hpid, hp, fun uid hpod => ?_⟩
  rw [System.params, h.maps, htask]
  exact (ownParams_iff h.agent).mpr h.entries pid p uid hp hpod

omit [DecidableEq κ] in
theorem Inv.suits_of_at (h : Inv taskParamsOpen cgroupParamsOpen n) {l : Place κ}
    (hat : At n.sched x l) (habsent : l ≠ .absent) (hasleep : l ≠ .asleep) :
    Suits taskParamsOpen cgroupParamsOpen n x (n.sched.params x) :=
  h.suits (h.awake x (h.wf.enabled_of_at hat habsent) (h.wf.not_at hat hasleep))

/-- The slices and charges of a step. -/
theorem Inv.accords (h : Inv taskParamsOpen cgroupParamsOpen n) {a : Smp.Action κ τ}
    {t : System κ τ} {es : List (Smp.Event κ τ)} (hruns : n.runs a)
    (hd : Smp.Does n.sched a t es) {e : Smp.Event κ τ} (he : e ∈ es) :
    Accords taskParamsOpen cgroupParamsOpen n e := by
  have hcharge : ∀ {c : κ} {p : τ}, n.sched.curr c = some p →
      Accords taskParamsOpen cgroupParamsOpen n (.stopped c p (chargeOf n.sched p)) :=
    fun hc => ⟨_, h.suits_of_at (l := .cpu _) hc (by simp) (by simp), rfl⟩
  cases hd with
  | enable => cases hruns
  | wakeLocal hout hp =>
    rw [List.mem_singleton.mp he]
    exact ⟨_, h.suits hruns, rfl⟩
  | sleep hout hcur | preemptKeep hout hcur | preemptQueue hout hcur | expireLocal hout hcur =>
    rw [List.mem_singleton.mp he]
    exact hcharge hcur
  | expireMoved hout hcur =>
    rcases List.mem_cons.mp he with rfl | he
    · trivial
    · rw [List.mem_singleton.mp he]
      exact hcharge hcur
  | @insert c p found pick tp now hpc =>
    rw [List.mem_singleton.mp he]
    exact ⟨tp, h.held c p tp (by rw [hpc]; rfl), rfl⟩
  | balanceMoved | run | refill =>
    rw [List.mem_singleton.mp he]
    trivial
  | _ => cases he

theorem Inv.sched (h : Inv taskParamsOpen cgroupParamsOpen n) {a : Smp.Action κ τ}
    {t : System κ τ} {es : List (Smp.Event κ τ)} (hruns : n.runs a)
    (hd : Smp.Does n.sched a t es) :
    Inv taskParamsOpen cgroupParamsOpen { n with sched := t } := by
  have henable : ∀ c p, a ≠ .enable c p := by
    rintro c p rfl
    cases hruns
  have hset : ∀ maps, a ≠ .setMaps maps := by
    rintro maps rfl
    cases hruns
  obtain ⟨hmaps, htask⟩ := does_maps hd hset
  refine ⟨h.agent, h.entries, h.wf.step hd, hmaps.trans h.maps, ?_, ?_, ?_⟩
  · intro x pid hpid
    obtain ⟨p, hp, heq⟩ := h.task x pid hpid
    exact ⟨p, hp, (congrFun htask x).trans heq⟩
  · intro x hx hs
    simp only [does_enabled hd henable] at hx
    by_cases hold : x ∈ n.sched.asleep
    · obtain ⟨c, idle, rfl⟩ := does_asleep hd hold hs
      exact hruns
    · exact h.awake x hx hold
  · intro c x tp hheld
    rcases does_held hd hheld with hold | ⟨hat, rfl⟩
    · exact h.held c x tp hold
    · exact h.suits_of_at hat (by simp) (by simp)

omit [DecidableEq κ] in
theorem Inv.host (h : Inv taskParamsOpen cgroupParamsOpen n) {a : Host.Action} {t : Host.Node}
    {es : List Host.Event} (hbusy : n.busy a = false) (hd : Host.Does n.host a t es)
    (hclean : Clean taskParamsOpen cgroupParamsOpen (n.host, n.log) a) :
    Inv taskParamsOpen cgroupParamsOpen
      { n with host := t, log := n.log ++ es, procOf := n.left a }.sync where
  agent := h.agent.step hd
  entries := (ownEntries_step h.agent h.entries hd).mpr hclean
  wf := wf_sync h.wf
  maps := rfl
  task := by
    intro x pid hpid
    obtain ⟨hold, hne⟩ := left_eq_some hpid
    obtain ⟨p, hp, -⟩ := h.task x pid hold
    obtain ⟨q, hq, -⟩ := host_proc hd hne hp
    refine ⟨q, hq, ?_⟩
    simp only [Node.sync] at hpid ⊢
    rw [hpid, Option.bind_some, hq]
    rfl
  awake := by
    intro x hx hs
    have hold := h.awake x hx hs
    rw [← left_of_awake hbusy hx hs] at hold
    exact hold
  held := by
    intro c x tp hheld
    obtain ⟨pid, p, hpid, hp, hgiven⟩ := h.held c x tp hheld
    have hat : At n.sched x (.enqueued c) := at_of_held hheld
    have hleft := left_of_awake hbusy (h.wf.enabled_of_at hat (by simp))
      (h.wf.not_at (k := .asleep) hat (by simp))
    obtain ⟨q, hq, hpod⟩ := host_proc hd (left_eq_some (hleft.trans hpid)).2 hp
    exact ⟨pid, q, hleft.trans hpid, hq, fun uid huid => (hgiven uid (hpod ▸ huid)).append es⟩

theorem Inv.spawn (h : Inv taskParamsOpen cgroupParamsOpen n) {c : κ} {x : τ} {pid : U32}
    {t : System κ τ} {es : List (Smp.Event κ τ)} (hpid : pid ∈ n.host.procs)
    (hd : Smp.Does n.sched (.enable c x) t es) :
    Inv taskParamsOpen cgroupParamsOpen
      { n with sched := t, procOf := Function.update n.procOf x (some pid) }.sync := by
  have hwf := h.wf.step hd
  cases hd with
  | enable hout hx =>
    refine ⟨h.agent, h.entries, wf_sync hwf, rfl, ?_, ?_, ?_⟩
    · intro y pid' hy
      have hproc : ∃ p, n.host.procs.lookup pid' = some p := by
        by_cases hyx : y = x
        · subst hyx
          simp only [Node.sync, Function.update_self, Option.some.injEq] at hy
          subst hy
          exact Finmap.mem_iff.mp hpid
        · simp only [Node.sync, Function.update_of_ne hyx] at hy
          obtain ⟨p, hp, -⟩ := h.task y pid' hy
          exact ⟨p, hp⟩
      obtain ⟨p, hp⟩ := hproc
      refine ⟨p, hp, ?_⟩
      simp only [Node.sync] at hy ⊢
      rw [hy, Option.bind_some, hp]
      rfl
    · intro y hy hs
      -- the new task is asleep
      have hyx : y ≠ x := fun heq => hs (heq ▸ Finset.mem_insert_self _ _)
      simp only [Node.sync, Function.update_of_ne hyx]
      refine h.awake y (Finset.mem_of_mem_insert_of_ne hy hyx) fun hold => hs ?_
      exact Finset.mem_insert_of_mem hold
    · intro c' y tp hheld
      have hheld' : heldParams (n.sched.pc c') = some (y, tp) := hheld
      have hyx : y ≠ x := by
        intro heq
        exact hx (heq ▸ h.wf.enabled_of_at (at_of_held hheld') (by simp))
      obtain ⟨pid', p, hy, hp, hgiven⟩ := h.held c' y tp hheld'
      exact ⟨pid', p, (Function.update_of_ne hyx _ _).trans hy, hp, hgiven⟩

theorem Inv.step (h : Inv taskParamsOpen cgroupParamsOpen n) {a : Action κ τ}
    (hclean : CleanHost taskParamsOpen cgroupParamsOpen n a) {es : List (Smp.Event κ τ)}
    (hd : Does n a m es) : Inv taskParamsOpen cgroupParamsOpen m := by
  cases hd with
  | host hbusy hd => exact h.host hbusy hd hclean
  | spawn hpid hd => exact h.spawn hpid hd
  | sched hruns hd => exact h.sched hruns hd

omit [DecidableEq κ] [DecidableEq τ] in
theorem boot_inv {tree : CgroupTree} (hids : (tree.dirs.map Dir.id).Nodup) (task : τ → Task)
    (allowed : τ → κ → Bool) : Inv taskParamsOpen cgroupParamsOpen
      (boot tree taskParamsOpen cgroupParamsOpen task allowed) where
  agent := PidReuse.boot_inv hids
  entries := fun _ _ _ _ hp => by cases hp
  wf := SmpPlaces.boot_wf _ _ _
  maps := rfl
  task := fun _ _ hpid => by cases hpid
  awake := fun _ hx => by cases hx
  held := fun _ _ _ h => by cases h

end Node

/-- From a start over empty maps, however the agent, the processes and the CPUs take
turns: as long as no PID with an entry goes to another pod's process and no update
writes the PID of one, every slice and every charge is that of the defaults or of
parameters that the agent wrote for the pod of the task. -/
theorem scheduled_with_own_params {tree : CgroupTree} (hids : (tree.dirs.map Dir.id).Nodup)
    {taskParamsOpen cgroupParamsOpen : Bool} {task : τ → Task} {allowed : τ → κ → Bool}
    {tr es : List (Smp.Event κ τ)} {n m : Node κ τ} {a : Action κ τ}
    (h : Run step (CleanHost taskParamsOpen cgroupParamsOpen)
      (boot tree taskParamsOpen cgroupParamsOpen task allowed) tr n)
    (hstep : step n a = some (m, es)) :
    ∀ e ∈ es, Accords taskParamsOpen cgroupParamsOpen n e := by
  have hinv : Inv taskParamsOpen cgroupParamsOpen n :=
    h.invariant (I := fun _ n => Inv taskParamsOpen cgroupParamsOpen n) (boot_inv hids task allowed)
      fun _ _ _ _ _ hI hclean hs => hI.step hclean (step_does hs)
  intro e he
  cases step_does hstep with
  | host => cases he
  | spawn hpid hd =>
    cases hd with
    | enable => rw [List.mem_singleton.mp he]; trivial
  | sched hruns hd => exact hinv.accords hruns hd he

/-- A task of a pod with a budget of 2 ms is woken; between the lookup and the
insertion of `k8s_enqueue` the agent gives the pod a budget of 3 ms. -/
def rewritten : List (Action Bool Bool) :=
  [.host (.start 7 (some "a") dirA),
    .host (.find (.update ⟨podA, some ⟨9000, 2000000⟩, [⟨2, none⟩], [⟨7, none⟩]⟩) {}), .host .write,
    .spawn true true 7, .sched (.wake true true none), .sched (.proceed true),
    .host (.find (.update ⟨podA, some ⟨9000, 3000000⟩, [⟨2, none⟩], [⟨7, none⟩]⟩) {}), .host .write,
    .sched (.proceed true)]

def quietNode : Node Bool Bool := boot twoPods true true (fun _ => ⟨0, none⟩) fun _ _ => true

instance (n : Node Bool Bool) (a : Action Bool Bool) : Decidable (CleanHost true true n a) :=
  match a with
  | .host a => inferInstanceAs (Decidable (Clean true true (n.host, n.log) a))
  | .spawn _ _ _ | .sched _ => inferInstanceAs (Decidable True)

theorem scheduled_with_own_params_rewritten :
    ∃ (tr : List (Smp.Event Bool Bool)) (n m : Node Bool Bool),
      Run step (CleanHost true true) quietNode tr n ∧
      step n (.sched (.proceed true)) = some (m, [.inserted true true true 2000000 0]) ∧
      n.sched.params true = ⟨9000, 3000000⟩ ∧
      ∃ tp, Suits true true n true tp ∧ 2000000 = taskSlice tp := by
  have h : Run step (CleanHost true true) quietNode _ _ :=
    Run.of_isSome rewritten (by decide) (by decide)
  have hstep : step ((exec step quietNode rewritten).get (by decide)).1
      (.sched (.proceed true)) = some (_, [.inserted true true true 2000000 0]) := rfl
  exact ⟨_, _, _, h, hstep, by decide,
    scheduled_with_own_params (by decide) h hstep _ (List.mem_singleton_self _)⟩

end K8sSched.Agent.SchedNode
