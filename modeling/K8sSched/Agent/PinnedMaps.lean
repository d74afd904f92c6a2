import Mathlib.Data.Fintype.Basic
import K8sSched.Agent.Handover

/-! # Handing over the pinned maps

The pin directory during a rolling upgrade: the deferred calls of the old
agent's `Run` remove the directory and close the scheduler's link, in that
order, while the new agent loads, attaches and opens the maps by their pins
(`internal/sched/agent.go`, `Maps.Open`). The new scheduler reads the maps of
the attempt that attached it. Their pins are still there when `Open` looks for
them unless the old agent removed them in the meantime. -/

namespace K8sSched.Agent.PinnedMaps

open K8sSched.Agent.Handover (Owner schedulerContended opsFile)
open K8sSched.Lib.Runs

/-- The maps userspace needs, by the names they are pinned under. -/
inductive MapName
  | taskParams | cgroupParams | stats
  deriving DecidableEq

instance : Fintype MapName :=
  ⟨{.taskParams, .cgroupParams, .stats}, fun name => by cases name <;> decide⟩

/-- The next step of the old agent's shutdown. `os.RemoveAll` lists the directory,
unlinks what it has listed and removes the directory. -/
inductive OldPc
  | running
  | unlink (names : List MapName)
  | close
  | exited
  deriving DecidableEq

/-- The next step of the new agent: an attempt of `loadScheduler`, what
`loadSchedulerWithRetry` does after a failed one, and `Maps.Open`. -/
inductive NewPc
  | mkdir
  | load
  | readOps (err : String)
  | pause
  | returned (err : String)
  | openTask
  | openCgroup
  | openStats
  | opened
  deriving DecidableEq

/-- The pin directory, the map objects given out so far, the registered
scheduler, the two agents, the maps of the new agent's collection, which its
scheduler reads, and its handles. -/
structure Node where
  dir : Bool
  pins : MapName → Option Nat
  next : Nat
  registered : Option Owner
  cancelled : Bool
  old : OldPc
  new : NewPc
  collection : MapName → Option Nat
  handles : MapName → Option Nat

inductive Action
  | list (names : List MapName)
  | unlink
  | rmdir
  | closeLink
  | mkdirAll
  /-- The collection gets one of its maps. -/
  | getMap (name : MapName)
  | attach (cause : String)
  | readOps
  | timer
  | ctxDone
  | cancel
  | openNext
  deriving DecidableEq

inductive Event
  | unlinked (name : MapName)
  | obtained (name : MapName)
  | attached
  deriving DecidableEq

/-- The collection is closed and the error returned. -/
def Node.fail (s : Node) (err : String) : Node :=
  { s with collection := fun _ => none, new := .readOps err }

/-- `LoadPinnedMap`, with the handle left as it is when there is no pin. -/
def Node.loadPinned (s : Node) (name : MapName) : Node :=
  match s.pins name with
  | none => s
  | some id => { s with handles := Function.update s.handles name (some id) }

def step (s : Node) : Action → Option (Node × List Event)
  | .list names =>
    if s.old = .running ∧ names.Nodup ∧ ∀ name, name ∈ names ↔ (s.pins name).isSome then
      some ({ s with old := .unlink names }, [])
    else none
  | .unlink =>
    match s.old with
    | .unlink (name :: names) =>
      some ({ s with pins := Function.update s.pins name none, old := .unlink names },
        [.unlinked name])
    | _ => none
  | .rmdir =>
    match s.old with
    | .unlink [] =>
      -- fails when the directory is not empty
      some ({ s with
        dir := if ∀ name, s.pins name = none then false else s.dir
        old := .close }, [])
    | _ => none
  | .closeLink =>
    match s.old with
    | .close => some ({ s with registered := none, old := .exited }, [])
    | _ => none
  | .mkdirAll =>
    match s.new with
    | .mkdir => some ({ s with dir := true, new := .load }, [])
    | _ => none
  | .getMap name =>
    if s.new = .load ∧ s.collection name = none then
      match s.pins name with
      | some id =>
        some ({ s with collection := Function.update s.collection name (some id) },
          [.obtained name])
      | none =>
        if s.dir then
          some ({ s with
            pins := Function.update s.pins name (some s.next)
            collection := Function.update s.collection name (some s.next)
            next := s.next + 1 }, [.obtained name])
        else some (s.fail "load BPF collection: no such file or directory", [])
    else none
  | .attach cause =>
    if s.new = .load ∧ ∀ name, s.collection name ≠ none then
      match s.registered with
      | none => some ({ s with registered := some .new, new := .openTask }, [.attached])
      | some _ => some (s.fail ("attach struct_ops: " ++ cause), [])
    else none
  | .readOps =>
    match s.new with
    | .readOps err =>
      if !schedulerContended (opsFile s.registered) || s.cancelled then
        some ({ s with new := .returned err }, [])
      else some ({ s with new := .pause }, [])
    | _ => none
  | .timer =>
    match s.new with
    | .pause => some ({ s with new := .mkdir }, [])
    | _ => none
  | .ctxDone =>
    if s.new = .pause ∧ s.cancelled then some ({ s with new := .returned "context canceled" }, [])
    else none
  | .cancel => some ({ s with cancelled := true }, [])
  | .openNext =>
    match s.new with
    | .openTask =>
      -- without task_params `Open` returns an error, which `Run` only logs
      if s.pins .taskParams = none then some ({ s with new := .opened }, [])
      else some ({ s.loadPinned .taskParams with new := .openCgroup }, [])
    | .openCgroup => some ({ s.loadPinned .cgroupParams with new := .openStats }, [])
    | .openStats => some ({ s.loadPinned .stats with new := .opened }, [])
    | _ => none

/-- The new agent starts while the old one is attached, over the pins that are
there. -/
def upgrade (pins : MapName → Option Nat) (next : Nat) : Node where
  dir := true
  pins := pins
  next := next
  registered := some .old
  cancelled := false
  old := .running
  new := .mkdir
  collection := fun _ => none
  handles := fun _ => none

/-! ## Removed pins -/

/-- The pin was removed and the map has not been obtained since. -/
def Removed (name : MapName) (tr : List Event) : Prop :=
  Since (· = .unlinked name) (· = .obtained name) tr

instance (name : MapName) (tr : List Event) : Decidable (Removed name tr) :=
  inferInstanceAs (Decidable (Since _ _ tr))

theorem not_removed_obtained {name : MapName} (tr : List Event) :
    ¬ Removed name (tr ++ [.obtained name]) := by
  rw [Removed, since_concat]
  rintro (h | ⟨h, -⟩)
  · cases h
  · exact h rfl

theorem removed_unlinked {name : MapName} (tr : List Event) :
    Removed name (tr ++ [.unlinked name]) :=
  (since_concat tr _).mpr (.inl rfl)

/-- Events about other maps do not matter. -/
theorem removed_concat {name : MapName} {e : Event} (hu : e ≠ .unlinked name)
    (ho : e ≠ .obtained name) (tr : List Event) :
    Removed name (tr ++ [e]) ↔ Removed name tr := by
  rw [Removed, since_concat]
  exact ⟨fun h => (h.resolve_left hu).2, fun h => .inr ⟨ho, h⟩⟩

/-! ## The maps of the collection -/

/-- The collection's map is the one under its pin, or the pin was removed. -/
def Held (tr : List Event) (pin map : Option Nat) (name : MapName) : Prop :=
  map ≠ none → pin = map ∧ ¬ Removed name tr ∨ pin = none ∧ Removed name tr

/-- What `Open` has done so far. -/
def OpenedOk (pins handles : MapName → Option Nat) : NewPc → Prop
  | .openCgroup => pins .taskParams ≠ none ∧ handles .taskParams = pins .taskParams ∧
      handles .cgroupParams = none
  | .openStats => handles .taskParams = pins .taskParams ∧
      handles .cgroupParams = pins .cgroupParams
  | .opened => handles .taskParams = pins .taskParams ∧
      (handles .cgroupParams = pins .cgroupParams ∨
        pins .taskParams = none ∧ handles .cgroupParams = none)
  | _ => handles .taskParams = none ∧ handles .cgroupParams = none

/-- The new agent has attached its scheduler. -/
def NewPc.isAttached : NewPc → Bool
  | .openTask | .openCgroup | .openStats | .opened => true
  | _ => false

structure Inv (tr : List Event) (s : Node) : Prop where
  held : ∀ name, Held tr (s.pins name) (s.collection name) name
  old : s.old ≠ .exited → s.registered = some .old
  attached : s.new.isAttached → s.registered = some .new ∧ ∀ name, s.collection name ≠ none
  opened : OpenedOk s.pins s.handles s.new

theorem upgrade_inv (pins : MapName → Option Nat) (next : Nat) : Inv [] (upgrade pins next) where
  held := fun _ h => absurd rfl h
  old := fun _ => rfl
  attached := fun h => by cases h
  opened := ⟨rfl, rfl⟩

section Step

variable {tr : List Event} {s : Node}

theorem openedOk_of_not_attached {pins pins' handles : MapName → Option Nat} {pc pc' : NewPc}
    (h : OpenedOk pins handles pc) (hpc : pc.isAttached = false) (hpc' : pc'.isAttached = false) :
    OpenedOk pins' handles pc' := by
  cases pc <;> cases hpc <;> cases pc' <;> cases hpc' <;> exact h

/-- Until the old agent has exited, the new one is not attached. -/
theorem Inv.not_attached (h : Inv tr s) (hold : s.old ≠ .exited) : s.new.isAttached = false := by
  by_contra hnot
  have hattached := (h.attached (Bool.eq_true_of_not_eq_false hnot)).1
  rw [h.old hold] at hattached
  cases hattached

/-- The new agent moves on without a scheduler or handles. -/
theorem Inv.move (h : Inv tr s) (hpc : s.new.isAttached = false) {pc : NewPc}
    (hpc' : pc.isAttached = false) (dir cancelled : Bool) :
    Inv tr { s with dir := dir, cancelled := cancelled, new := pc } where
  held := h.held
  old := h.old
  attached := fun hatt => by rw [hpc'] at hatt; cases hatt
  opened := openedOk_of_not_attached h.opened hpc hpc'

theorem Inv.fail (h : Inv tr s) (hpc : s.new.isAttached = false) (err : String) :
    Inv tr (s.fail err) where
  held := fun _ hne => absurd rfl hne
  old := h.old
  attached := fun hatt => by cases hatt
  opened := openedOk_of_not_attached h.opened hpc rfl

theorem Inv.unlink (h : Inv tr s) {name : MapName} {names : List MapName}
    (hold : s.old = .unlink (name :: names)) :
    Inv (tr ++ [.unlinked name])
      { s with pins := Function.update s.pins name none, old := .unlink names } := by
  have hrunning : s.old ≠ .exited := by rw [hold]; simp
  have hpc := h.not_attached hrunning
  refine ⟨fun n hne => ?_, fun _ => h.old hrunning, fun hatt => ?_, ?_⟩
  · by_cases hn : n = name
    · subst hn
      exact .inr ⟨Function.update_self .., removed_unlinked tr⟩
    · have hpin : Function.update s.pins name none n = s.pins n := Function.update_of_ne hn _ _
      have hremoved : Removed n (tr ++ [.unlinked name]) ↔ Removed n tr :=
        removed_concat (by simpa using Ne.symm hn) (by simp) tr
      rw [hremoved]
      change Function.update s.pins name none n = _ ∧ _ ∨ Function.update s.pins name none n = _ ∧ _
      rw [hpin]
      exact h.held n hne
  · rw [hpc] at hatt
    cases hatt
  · exact openedOk_of_not_attached h.opened hpc hpc

/-- The collection gets the map that is under its pin then. -/
theorem Inv.getMap (h : Inv tr s) (hpc : s.new = .load) {name : MapName} {id : Nat}
    {pins : MapName → Option Nat} (hpin : pins name = some id)
    (hpins : ∀ n, n ≠ name → pins n = s.pins n) (next : Nat) :
    Inv (tr ++ [.obtained name])
      { s with
        pins := pins
        collection := Function.update s.collection name (some id)
        next := next } := by
  refine ⟨fun n hne => ?_, h.old, fun hatt => ?_, ?_⟩
  · by_cases hn : n = name
    · subst hn
      refine .inl ⟨?_, not_removed_obtained tr⟩
      change pins n = Function.update s.collection n (some id) n
      rw [hpin, Function.update_self]
    · have hmap : Function.update s.collection name (some id) n = s.collection n :=
        Function.update_of_ne hn _ _
      have hremoved : Removed n (tr ++ [.obtained name]) ↔ Removed n tr :=
        removed_concat (by simp) (by simpa using Ne.symm hn) tr
      change Function.update s.collection name (some id) n ≠ none at hne
      change pins n = Function.update s.collection name (some id) n ∧ _ ∨ pins n = none ∧ _
      rw [hmap] at hne ⊢
      rw [hremoved, hpins n hn]
      exact h.held n hne
  · rw [show (_ : Node).new = s.new from rfl, hpc] at hatt
    cases hatt
  · have hload : s.new.isAttached = false := by rw [hpc]; rfl
    exact openedOk_of_not_attached h.opened hload hload

theorem Inv.attach (h : Inv tr s) (hpc : s.new = .load)
    (hall : ∀ name, s.collection name ≠ none) (hnone : s.registered = none) :
    Inv (tr ++ [.attached]) { s with registered := some .new, new := .openTask } where
  held := fun name hne => by
    rw [removed_concat (by simp) (by simp)]
    exact h.held name hne
  old := fun hold => by
    have := h.old hold
    rw [hnone] at this
    cases this
  attached := fun _ => ⟨rfl, hall⟩
  opened := by
    have hopened := h.opened
    rw [hpc] at hopened
    exact hopened

theorem handles_loadPinned (s : Node) (name : MapName) (hnone : s.handles name = none) :
    (s.loadPinned name).handles name = s.pins name := by
  unfold Node.loadPinned
  split
  · next hpin => rw [hnone, hpin]
  · next id hpin => rw [hpin]; exact Function.update_self ..

theorem handles_loadPinned_ne (s : Node) {name n : MapName} (hn : n ≠ name) :
    (s.loadPinned name).handles n = s.handles n := by
  unfold Node.loadPinned
  split
  · rfl
  · exact Function.update_of_ne hn _ _

/-- `Open` goes on to its next map. -/
theorem Inv.loadPinned (h : Inv tr s) (hpc : s.new.isAttached) (name : MapName) (pc : NewPc)
    (hopened : OpenedOk s.pins (s.loadPinned name).handles pc) :
    Inv tr { s.loadPinned name with new := pc } := by
  have hattached := h.attached hpc
  unfold Node.loadPinned at hopened ⊢
  split at hopened
  · exact ⟨h.held, h.old, fun _ => hattached, hopened⟩
  · exact ⟨h.held, h.old, fun _ => hattached, hopened⟩

theorem Inv.openNext (h : Inv tr s) {t : Node} {es : List Event}
    (hs : step s .openNext = some (t, es)) : Inv (tr ++ es) t := by
  have hopened := h.opened
  simp only [step] at hs
  split at hs
  · next hpc =>
    rw [hpc] at hopened
    split at hs
    · next hnone =>
      cases hs
      rw [List.append_nil]
      refine ⟨h.held, h.old, fun _ => h.attached (by rw [hpc]; rfl), ?_, .inr ⟨hnone, hopened.2⟩⟩
      exact hopened.1.trans hnone.symm
    · next hsome =>
      cases hs
      rw [List.append_nil]
      refine h.loadPinned (by rw [hpc]; rfl) .taskParams .openCgroup ⟨hsome, ?_, ?_⟩
      · exact handles_loadPinned s _ hopened.1
      · exact (handles_loadPinned_ne s (by decide)).trans hopened.2
  · next hpc =>
    rw [hpc] at hopened
    cases hs
    rw [List.append_nil]
    refine h.loadPinned (by rw [hpc]; rfl) .cgroupParams .openStats ⟨?_, ?_⟩
    · exact (handles_loadPinned_ne s (by decide)).trans hopened.2.1
    · exact handles_loadPinned s _ hopened.2.2
  · next hpc =>
    rw [hpc] at hopened
    cases hs
    rw [List.append_nil]
    refine h.loadPinned (by rw [hpc]; rfl) .stats .opened ⟨?_, .inl ?_⟩
    · exact (handles_loadPinned_ne s (by decide)).trans hopened.1
    · exact (handles_loadPinned_ne s (by decide)).trans hopened.2
  · cases hs

theorem Inv.step (h : Inv tr s) {a : Action} {t : Node} {es : List Event}
    (hs : step s a = some (t, es)) : Inv (tr ++ es) t := by
  cases a with
  | openNext => exact h.openNext hs
  | unlink =>
    simp only [PinnedMaps.step] at hs
    split at hs
    · next hold => cases hs; exact h.unlink hold
    · cases hs
  | list names =>
    simp only [PinnedMaps.step] at hs
    split at hs
    · next hg =>
      cases hs
      rw [List.append_nil]
      exact { h with old := fun _ => h.old (by rw [hg.1]; simp) }
    · cases hs
  | rmdir =>
    simp only [PinnedMaps.step] at hs
    split at hs
    · next hold =>
      cases hs
      rw [List.append_nil]
      exact { h with old := fun _ => h.old (by rw [hold]; simp) }
    · cases hs
  | closeLink =>
    simp only [PinnedMaps.step] at hs
    split at hs
    · next hold =>
      cases hs
      rw [List.append_nil]
      have hpc := h.not_attached (by rw [hold]; simp)
      refine { h with old := fun hne => absurd rfl hne, attached := fun hatt => ?_ }
      rw [show s.new.isAttached = true from hatt] at hpc
      cases hpc
    · cases hs
  | mkdirAll =>
    simp only [PinnedMaps.step] at hs
    split at hs
    · next hpc =>
      cases hs
      rw [List.append_nil]
      exact h.move (by rw [hpc]; rfl) rfl _ _
    · cases hs
  | getMap name =>
    simp only [PinnedMaps.step] at hs
    split at hs
    · next hg =>
      split at hs
      · next id hpin =>
        cases hs
        exact h.getMap hg.1 hpin (fun _ _ => rfl) s.next
      · split at hs
        · cases hs
          exact h.getMap hg.1 (Function.update_self ..)
            (fun n hn => Function.update_of_ne hn _ _) (s.next + 1)
        · cases hs
          rw [List.append_nil]
          exact h.fail (by rw [hg.1]; rfl) _
    · cases hs
  | attach cause =>
    simp only [PinnedMaps.step] at hs
    split at hs
    · next hg =>
      split at hs
      · next hnone =>
        cases hs
        exact h.attach hg.1 hg.2 hnone
      · cases hs
        rw [List.append_nil]
        exact h.fail (by rw [hg.1]; rfl) _
    · cases hs
  | readOps =>
    simp only [PinnedMaps.step] at hs
    split at hs
    · next err hpc =>
      have hnot : s.new.isAttached = false := by rw [hpc]; rfl
      split at hs
      · cases hs
        rw [List.append_nil]
        exact h.move hnot rfl _ _
      · cases hs
        rw [List.append_nil]
        exact h.move hnot rfl _ _
    · cases hs
  | timer =>
    simp only [PinnedMaps.step] at hs
    split at hs
    · next hpc =>
      cases hs
      rw [List.append_nil]
      exact h.move (by rw [hpc]; rfl) rfl _ _
    · cases hs
  | ctxDone =>
    simp only [PinnedMaps.step] at hs
    split at hs
    · next hg =>
      cases hs
      rw [List.append_nil]
      exact h.move (by rw [hg.1]; rfl) rfl _ _
    · cases hs
  | cancel =>
    cases hs
    rw [List.append_nil]
    exact { h with }

end Step

/-- The handle is open and on the map the attached scheduler reads. -/
def Connected (s : Node) (name : MapName) : Prop :=
  s.handles name ≠ none ∧ s.handles name = s.collection name

/-- Whenever the new agent is attached and has finished `Open`, both parameter
maps are connected exactly when the old agent has removed neither of their pins
after the new agent obtained the map for the last time. -/
theorem connected_iff {pins : MapName → Option Nat} {next : Nat} {tr : List Event} {s : Node}
    (hrun : Run step (fun _ _ => True) (upgrade pins next) tr s) (hopened : s.new = .opened) :
    Connected s .taskParams ∧ Connected s .cgroupParams ↔
      ¬ Removed .taskParams tr ∧ ¬ Removed .cgroupParams tr := by
  have h : Inv tr s := hrun.invariant (upgrade_inv pins next) fun _ _ _ _ _ ih _ hs => ih.step hs
  obtain ⟨-, hall⟩ := h.attached (by rw [hopened]; rfl)
  have hopen := h.opened
  rw [hopened] at hopen
  obtain ⟨htask, hcgroup⟩ := hopen
  have hheld := fun name => h.held name (hall name)
  constructor
  · rintro ⟨⟨hne, -⟩, hne', -⟩
    constructor
    · intro hremoved
      rcases hheld .taskParams with ⟨-, hnot⟩ | ⟨hnone, -⟩
      · exact hnot hremoved
      · exact hne (htask.trans hnone)
    · intro hremoved
      rcases hheld .cgroupParams with ⟨-, hnot⟩ | ⟨hnone, -⟩
      · exact hnot hremoved
      · rcases hcgroup with hpin | ⟨-, hhandle⟩
        · exact hne' (hpin.trans hnone)
        · exact hne' hhandle
  · rintro ⟨hnt, hnc⟩
    have hpint := ((hheld .taskParams).resolve_right fun hr => hnt hr.2).1
    have hpinc := ((hheld .cgroupParams).resolve_right fun hr => hnc hr.2).1
    have hct : s.handles .cgroupParams = s.pins .cgroupParams := by
      rcases hcgroup with hpin | ⟨hnone, -⟩
      · exact hpin
      · rw [hpint] at hnone
        exact absurd hnone (hall _)
    have htc : s.handles .taskParams = s.collection .taskParams := htask.trans hpint
    have hcc : s.handles .cgroupParams = s.collection .cgroupParams := hct.trans hpinc
    exact ⟨⟨htc ▸ hall _, htc⟩, hcc ▸ hall _, hcc⟩

/-- The old agent's maps. -/
def oldPins : MapName → Option Nat
  | .taskParams => some 0
  | .cgroupParams => some 1
  | .stats => some 2

def attempt : List Action :=
  [.mkdirAll, .getMap .taskParams, .getMap .cgroupParams, .getMap .stats]

def shutdown : List Action :=
  [.list [.stats, .taskParams, .cgroupParams], .unlink, .unlink, .unlink, .rmdir, .closeLink]

/-- The old agent shuts down while the new one pauses: its next attempt pins maps
of its own. -/
theorem connected_iff_paused :
    ∃ s tr, exec step (upgrade oldPins 3)
        (attempt ++ [.attach "device or resource busy", .readOps] ++ shutdown ++ [.timer] ++
          attempt ++ [.attach "", .openNext, .openNext, .openNext]) = some (s, tr) ∧
      s.registered = some .new ∧ Connected s .taskParams ∧ Connected s .cgroupParams := by
  have hrun : Run step (fun _ _ => True) (upgrade oldPins 3) _ _ :=
    Run.of_isSome (attempt ++ [.attach "device or resource busy", .readOps] ++ shutdown ++
      [.timer] ++ attempt ++ [.attach "", .openNext, .openNext, .openNext]) (by decide) (by decide)
  exact ⟨_, _, rfl, rfl, (connected_iff hrun (by decide)).mpr (by decide)⟩

/-- The old agent shuts down between the new agent's last look at the pins and
its attach, which succeeds: `Open` finds no pin, and the agent stays attached
without handles. -/
theorem attached_without_handles :
    (exec step (upgrade oldPins 3) (attempt ++ shutdown ++ [.attach "", .openNext])).map
        (fun r => (r.1.new, r.1.registered, r.1.handles .taskParams, r.1.handles .cgroupParams)) =
      some (.opened, some .new, none, none) := by
  decide

end K8sSched.Agent.PinnedMaps
