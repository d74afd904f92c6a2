import Mathlib.Data.Finmap
import K8sSched.Agent.Handover

/-! # Pins after a failed load

`loadScheduler`, the loop around it and `Run` of `internal/sched/agent.go`, with
the outcome of every call that can fail, over what is pinned when the agent
starts. Loading the collection pins its maps; when the scheduler is then not
found in it or cannot be attached, the collection is closed and the pins stay.
`Run` removes the pin directory only after a successful load. -/

namespace K8sSched.Agent.FailedLoad

open K8sSched.Agent.Handover (schedulerContended)

/-- The pin directory: the map object under each pin, and the number of objects
made so far. -/
structure PinDir where
  dir : Bool
  pins : Finmap fun _ : String => Nat
  next : Nat

def mapPinDir : String := "/sys/fs/bpf/k8s-sched"

/-- The maps userspace needs. -/
def pinMaps : List String := ["task_params", "cgroup_params", "stats"]

/-- What the calls of `loadScheduler` return: the error of each, and for the
parsed object the names of its maps. -/
structure Calls where
  env : String := ""
  stat : Option String := none
  spec : Except String (List String)
  mkdirAll : Option String := none
  newCollection : Option String := none
  attachStructOps : Option String := none

def Calls.objPath (c : Calls) : String :=
  if c.env = "" then "/etc/k8s-sched/k8s_sched.bpf.o" else c.env

/-- `PinByName`: a map that is pinned is used, another one is made and pinned. -/
def pinByName (d : PinDir) (name : String) : PinDir :=
  if name ∈ d.pins then d else { d with pins := d.pins.insert name d.next, next := d.next + 1 }

/-- The collection pins those of its maps that are marked. -/
def pinMarked (d : PinDir) (maps : List String) : PinDir :=
  (maps.filter fun name => name ∈ pinMaps).foldl pinByName d

def loadScheduler (c : Calls) (d : PinDir) : PinDir × Except String Unit :=
  match c.stat with
  | some err => (d, .error ("bpf object not found at " ++ c.objPath ++ ": " ++ err))
  | none =>
    match c.spec with
    | .error err => (d, .error ("parse BPF spec: " ++ err))
    | .ok maps =>
      match c.mkdirAll with
      | some err => (d, .error ("create pin dir " ++ mapPinDir ++ ": " ++ err))
      | none =>
        let d := { d with dir := true }
        match c.newCollection with
        | some err => (d, .error ("load BPF collection: " ++ err))
        | none =>
          -- closing the collection does not unpin its maps
          let d := pinMarked d maps
          if "k8s_sched" ∉ maps then
            (d, .error ("struct_ops map 'k8s_sched' not found in " ++ c.objPath))
          else
            match c.attachStructOps with
            | some err => (d, .error ("attach struct_ops: " ++ err))
            | none => (d, .ok ())

/-- One turn of the loop of `loadSchedulerWithRetry`: the calls, the ops file
read after a failure, whether the context is cancelled by then, and whether it is
during the pause. -/
structure Attempt where
  calls : Calls
  ops : Option String := none
  cancelled : Bool := false
  ctxDone : Bool := false

/-- The error with which the loop returns; `none` while it goes on. -/
def loadSchedulerWithRetry : List Attempt → PinDir → Option (PinDir × Except String Unit)
  | [], _ => none
  | a :: attempts, d =>
    match loadScheduler a.calls d with
    | (d, .ok ()) => some (d, .ok ())
    | (d, .error err) =>
      if !schedulerContended a.ops || a.cancelled then some (d, .error err)
      else if a.ctxDone then some (d, .error "context canceled")
      else loadSchedulerWithRetry attempts d

/-- The pin directory when `Run` returns. -/
def run (attempts : List Attempt) (d : PinDir) : Option PinDir :=
  match loadSchedulerWithRetry attempts d with
  | none => none
  | some (d, .error _) => some d
  | some (d, .ok ()) => some { d with dir := false, pins := ∅ }

/-! ## What a load pins -/

/-- The maps a load pins; none when it fails before the collection is there. -/
def Calls.pinned (c : Calls) : List String :=
  match c.stat, c.spec, c.mkdirAll, c.newCollection with
  | none, .ok maps, none, none => maps.filter fun name => name ∈ pinMaps
  | _, _, _, _ => []

theorem mem_pinByName (d : PinDir) (name n : String) :
    n ∈ (pinByName d name).pins ↔ n ∈ d.pins ∨ n = name := by
  unfold pinByName
  split
  · next hname =>
    constructor
    · exact .inl
    · rintro (h | rfl)
      · exact h
      · exact hname
  · rw [Finmap.mem_insert]
    exact or_comm

theorem pinByName_of_mem {d : PinDir} {name : String} (h : name ∈ d.pins) :
    pinByName d name = d := if_pos h

theorem mem_pinned (l : List String) (d : PinDir) (n : String) :
    n ∈ (l.foldl pinByName d).pins ↔ n ∈ d.pins ∨ n ∈ l := by
  induction l generalizing d with
  | nil => simp
  | cons name l ih => rw [List.foldl_cons, ih, mem_pinByName, List.mem_cons, or_assoc]

/-- Pinning changes nothing exactly when everything is pinned already. -/
theorem pinned_eq_iff (l : List String) (d : PinDir) :
    (l.foldl pinByName d).pins = d.pins ↔ ∀ name ∈ l, name ∈ d.pins := by
  constructor
  · intro h name hname
    rw [← h]
    exact (mem_pinned l d name).mpr (.inr hname)
  · intro h
    induction l with
    | nil => rfl
    | cons name l ih =>
      rw [List.foldl_cons, pinByName_of_mem (h name List.mem_cons_self)]
      exact ih fun n hn => h n (List.mem_cons_of_mem _ hn)

theorem foldl_dir (l : List String) (d : PinDir) (b : Bool) :
    l.foldl pinByName { d with dir := b } = { l.foldl pinByName d with dir := b } := by
  induction l generalizing d with
  | nil => rfl
  | cons name l ih =>
    have hone : pinByName { d with dir := b } name = { pinByName d name with dir := b } := by
      unfold pinByName
      split <;> rfl
    rw [List.foldl_cons, List.foldl_cons, hone, ih]

/-- On the pins a load is the pinning of its maps, however it ends. -/
theorem load_pins (c : Calls) (d : PinDir) :
    (loadScheduler c d).1.pins = (c.pinned.foldl pinByName d).pins := by
  obtain ⟨env, stat, spec, mkdirAll, newCollection, attachStructOps⟩ := c
  cases stat with
  | some err => rfl
  | none =>
    cases spec with
    | error err => rfl
    | ok maps =>
      cases mkdirAll with
      | some err => rfl
      | none =>
        cases newCollection with
        | some err => rfl
        | none =>
          have hpins : (pinMarked { d with dir := true } maps).pins =
              ((maps.filter fun name => name ∈ pinMaps).foldl pinByName d).pins := by
            rw [pinMarked, foldl_dir]
          by_cases hmap : "k8s_sched" ∈ maps
          · cases attachStructOps with
            | some err => simpa [loadScheduler, hmap, Calls.pinned] using hpins
            | none => simpa [loadScheduler, hmap, Calls.pinned] using hpins
          · simpa [loadScheduler, hmap, Calls.pinned] using hpins

theorem mem_load (c : Calls) (d : PinDir) (n : String) :
    n ∈ (loadScheduler c d).1.pins ↔ n ∈ d.pins ∨ n ∈ c.pinned := by
  rw [load_pins, mem_pinned]

/-! ## The loop -/

/-- The attempts the loop makes. -/
def made : List Attempt → PinDir → List Attempt
  | [], _ => []
  | a :: attempts, d =>
    match loadScheduler a.calls d with
    | (_, .ok ()) => [a]
    | (d, .error _) =>
      if !schedulerContended a.ops || a.cancelled || a.ctxDone then [a] else a :: made attempts d

/-- A turn of the loop: it returns, or goes on from what the load has left. -/
theorem retry_cons {a : Attempt} {attempts : List Attempt} {d e : PinDir} {r : Except String Unit}
    (h : loadSchedulerWithRetry (a :: attempts) d = some (e, r)) :
    (e = (loadScheduler a.calls d).1 ∧ made (a :: attempts) d = [a]) ∨
      (loadSchedulerWithRetry attempts (loadScheduler a.calls d).1 = some (e, r) ∧
        made (a :: attempts) d = a :: made attempts (loadScheduler a.calls d).1) := by
  rw [loadSchedulerWithRetry] at h
  rw [made]
  split at h
  · next d' hload =>
    cases h
    exact .inl ⟨by rw [hload], rfl⟩
  · next d' err hload =>
    simp only [hload]
    split at h
    · next hstop =>
      cases h
      exact .inl ⟨rfl, by rw [hstop]; rfl⟩
    · next hstop =>
      split at h
      · next hdone =>
        cases h
        exact .inl ⟨rfl, by simp [hdone]⟩
      · next hdone =>
        refine .inr ⟨h, ?_⟩
        simp only [Bool.or_eq_true, not_or, Bool.not_eq_true] at hstop hdone
        simp [hstop.1, hstop.2, hdone]

/-- The loop never unpins. -/
theorem retry_grows {attempts : List Attempt} {d e : PinDir} {r : Except String Unit}
    (h : loadSchedulerWithRetry attempts d = some (e, r)) {n : String} (hn : n ∈ d.pins) :
    n ∈ e.pins := by
  induction attempts generalizing d with
  | nil => cases h
  | cons a attempts ih =>
    have hload : n ∈ (loadScheduler a.calls d).1.pins := (mem_load _ _ _).mpr (.inl hn)
    rcases retry_cons h with ⟨rfl, -⟩ | ⟨hrest, -⟩
    · exact hload
    · exact ih hrest hload

/-- After the loop the pins are as before exactly when every map an attempt
pinned was there. -/
theorem retry_pins_iff {attempts : List Attempt} {d e : PinDir} {r : Except String Unit}
    (h : loadSchedulerWithRetry attempts d = some (e, r)) :
    e.pins = d.pins ↔ ∀ a ∈ made attempts d, ∀ name ∈ a.calls.pinned, name ∈ d.pins := by
  induction attempts generalizing d with
  | nil => cases h
  | cons a attempts ih =>
    have hfirst := pinned_eq_iff a.calls.pinned d
    rw [← load_pins] at hfirst
    rcases retry_cons h with ⟨rfl, hmade⟩ | ⟨hrest, hmade⟩
    · rw [hmade, hfirst]
      simp
    · rw [hmade, List.forall_mem_cons]
      by_cases hpinned : ∀ name ∈ a.calls.pinned, name ∈ d.pins
      · rw [← hfirst.mpr hpinned, ih hrest]
        rw [hfirst.mpr hpinned]
        exact (and_iff_right hpinned).symm
      · refine iff_of_false (fun heq => hpinned ?_) fun hall => hpinned hall.1
        intro name hname
        rw [← heq]
        exact retry_grows hrest ((mem_load _ _ _).mpr (.inr hname))

/-- When the load fails and `Run` goes on without a scheduler, it leaves the pins
as they were exactly when no attempt got as far as a collection with a map that
was not pinned yet. -/
theorem failed_load_iff {attempts : List Attempt} {d e : PinDir} {err : String}
    (h : loadSchedulerWithRetry attempts d = some (e, .error err)) :
    (run attempts d).map PinDir.pins = some d.pins ↔
      ∀ a ∈ made attempts d, ∀ name ∈ a.calls.pinned, name ∈ d.pins := by
  rw [← retry_pins_iff h, run, h]
  exact Option.some_inj

/-- The maps of the BPF object. -/
def objectMaps : List String := ["task_params", "cgroup_params", "stats", "k8s_sched"]

/-- The pins of an agent that was here before. -/
def pinnedDir : PinDir :=
  ⟨true, ((Finmap.singleton "task_params" 0).insert "cgroup_params" 1).insert "stats" 2, 3⟩

/-- Another scheduler is attached, then the collection cannot be loaded, and then
the object is gone. -/
def threeFailures : List Attempt :=
  [{ calls := { spec := .ok objectMaps, attachStructOps := some "device or resource busy" }
     ops := some "scx_lavd\n" },
    { calls := { spec := .ok objectMaps, newCollection := some "cannot allocate memory" }
      ops := some "scx_lavd\n" },
    { calls := { stat := some "no such file or directory", spec := .ok objectMaps } }]

theorem failed_load_iff_pinned :
    (run threeFailures pinnedDir).map PinDir.pins = some pinnedDir.pins :=
  (failed_load_iff (d := pinnedDir) (e := pinnedDir) rfl).mpr (by decide)

def emptyDir : PinDir := ⟨false, ∅, 0⟩

/-- Another scheduler is attached: the maps stay pinned after `Run`. -/
theorem refused_attach_leaves_pins :
    ∃ e, loadSchedulerWithRetry
        [{ calls := { spec := .ok objectMaps, attachStructOps := some "device or resource busy" }
           ops := some "scx_lavd\n" }] emptyDir =
          some (e, .error "attach struct_ops: device or resource busy") ∧
      (run [{ calls := { spec := .ok objectMaps
                         attachStructOps := some "device or resource busy" }
              ops := some "scx_lavd\n" }] emptyDir).map (fun d => d.pins.keys) =
        some {"task_params", "cgroup_params", "stats"} ∧
      emptyDir.pins = ∅ :=
  ⟨_, rfl, by decide, rfl⟩

end K8sSched.Agent.FailedLoad
