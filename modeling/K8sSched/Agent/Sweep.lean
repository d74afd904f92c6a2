import K8sSched.Lib.Runs
import K8sSched.Agent.CgroupFs
import K8sSched.Agent.MapOps

/-! # The sweep of stale cgroup entries

`CleanStaleCgroupIDs` on its goroutine, `UpdatePodParams` and `RemovePodParams`
on the informer's, and the directories that come and go. The sweep takes its
snapshot of the live IDs in one step, then each `iter.Next` and each `Delete` is
a step; an update resolves the pod's IDs in one step, then each `Put` is one. -/

namespace K8sSched.Agent.Sweep

open K8sSched.Bpf.Params K8sSched.Agent.CgroupFs K8sSched.Agent.MapOps
open K8sSched.Lib.Runs K8sSched.Lib.GoMap

/-- Where `CleanStaleCgroupIDs` is, with its local variables. -/
inductive Stage
  | idle
  | iterating (live stale : List U64)
  | deleting (stale : List U64) (removed : Nat)

/-- The IDs an update still has to write, and their value. -/
structure Writing where
  cgids : List U64
  tp : TaskParams

structure Node where
  tree : CgroupTree
  cgroupParams : Finmap fun _ : U64 => TaskParams
  writing : Writing
  sweep : Stage

inductive Action
  | mkdir (path : Path) (id : U64)
  | rmdir (path : Path)
  | resolve (uid : String) (f : Faults) (cgids : List U64) (tp : TaskParams)
  | put (ok : Bool)
  | remove (cgid : U64)
  | snapshot (f : Faults)
  | next (key : U64)
  | iterated
  | delete (ok : Bool)

/-- The sweep deletes an entry, or returns the number it removed. -/
inductive Event
  | deleted (id : U64)
  | returned (removed : Nat)
  deriving DecidableEq

def step (s : Node) : Action → Option (Node × List Event)
  | .mkdir path id => (mkdir s.tree path id).map fun tree => ({ s with tree := tree }, [])
  | .rmdir path => (rmdir s.tree path).map fun tree => ({ s with tree := tree }, [])
  -- the walk finds the IDs in some order
  | .resolve uid f cgids tp =>
    if s.writing.cgids = [] ∧ cgids.Perm (resolvePodCgroupIDs s.tree f uid) then
      some ({ s with writing := ⟨cgids, tp⟩ }, [])
    else none
  | .put ok =>
    match s.writing.cgids with
    | [] => none
    | id :: rest =>
      some ({ s with
        cgroupParams := if ok then s.cgroupParams.insert id s.writing.tp else s.cgroupParams
        writing := ⟨rest, s.writing.tp⟩ }, [])
  | .remove cgid => some ({ s with cgroupParams := s.cgroupParams.erase cgid }, [])
  | .snapshot f =>
    match s.sweep with
    | .idle =>
      let live := liveKubepodsCgroupIDs s.tree f
      if live = [] then some (s, [.returned 0])
      else some ({ s with sweep := .iterating live [] }, [])
    | _ => none
  | .next key =>
    match s.sweep with
    | .iterating live stale =>
      if key ∈ s.cgroupParams then
        some ({ s with
          sweep := .iterating live (if key ∉ live then stale ++ [key] else stale) }, [])
      else none
    | _ => none
  | .iterated =>
    match s.sweep with
    | .iterating _ stale => some ({ s with sweep := .deleting stale 0 }, [])
    | _ => none
  | .delete ok =>
    match s.sweep with
    | .deleting [] removed => some ({ s with sweep := .idle }, [.returned removed])
    | .deleting (id :: rest) removed =>
      if ok ∧ id ∈ s.cgroupParams then
        some ({ s with
          cgroupParams := s.cgroupParams.erase id
          sweep := .deleting rest (removed + 1) }, [.deleted id])
      else some ({ s with sweep := .deleting rest removed }, [])
    | _ => none

/-! ## The calls on their own -/

/-- One round of the deletion loop of `CleanStaleCgroupIDs`, on the map and the
number removed; a `Delete` also fails for a missing key. -/
def deleteStale (failing : List U64) (acc : (Finmap fun _ : U64 => TaskParams) × Nat) (id : U64) :
    (Finmap fun _ : U64 => TaskParams) × Nat :=
  if id ∉ failing ∧ id ∈ acc.1 then (acc.1.erase id, acc.2 + 1) else acc

/-- `CleanStaleCgroupIDs` uninterrupted, iterating over the keys in some order:
the map after it and the number of entries removed. -/
def cleanStaleCgroupIDs (tree : CgroupTree) (f : Faults) (m : Finmap fun _ : U64 => TaskParams)
    (keys failing : List U64) : (Finmap fun _ : U64 => TaskParams) × Nat :=
  let live := liveKubepodsCgroupIDs tree f
  if live = [] then (m, 0)
  else (keys.filter fun key => key ∉ live).foldl (deleteStale failing) (m, 0)

section Alone

variable (tree : CgroupTree) (m : Finmap fun _ : U64 => TaskParams) (w : Writing)

theorem exec_next (live stale keys : List U64) (hkeys : ∀ key ∈ keys, key ∈ m) :
    exec step ⟨tree, m, w, .iterating live stale⟩ (keys.map .next) =
      some (⟨tree, m, w, .iterating live (stale ++ keys.filter fun key => key ∉ live)⟩, []) := by
  induction keys generalizing stale with
  | nil => simp [exec]
  | cons key keys ih =>
    have hkey := hkeys key List.mem_cons_self
    have hrest : ∀ k ∈ keys, k ∈ m := fun k hk => hkeys k (List.mem_cons_of_mem _ hk)
    simp only [List.map_cons, exec, step, hkey, if_true, Option.bind_some, ih _ hrest,
      Option.map_some, List.append_nil]
    by_cases hlive : key ∈ live
    · simp [hlive]
    · simp [hlive]

theorem exec_delete (failing stale : List U64) (removed : Nat) :
    ∃ es, exec step ⟨tree, m, w, .deleting stale removed⟩
        (stale.map fun id => .delete (id ∉ failing)) =
      some (⟨tree, (stale.foldl (deleteStale failing) (m, removed)).1, w,
        .deleting [] (stale.foldl (deleteStale failing) (m, removed)).2⟩, es) := by
  induction stale generalizing m removed with
  | nil => exact ⟨[], rfl⟩
  | cons id stale ih =>
    by_cases hid : id ∉ failing ∧ id ∈ m
    · obtain ⟨es, hes⟩ := ih (m.erase id) (removed + 1)
      refine ⟨.deleted id :: es, ?_⟩
      have hid' : decide (id ∉ failing) = true ∧ id ∈ m := by simpa using hid
      simp only [List.map_cons, exec, step, if_pos hid', Option.bind_some, hes,
        List.foldl_cons, deleteStale, if_pos hid]
      rfl
    · obtain ⟨es, hes⟩ := ih m removed
      refine ⟨es, ?_⟩
      have hid' : ¬ (decide (id ∉ failing) = true ∧ id ∈ m) := by simpa using hid
      simp only [List.map_cons, exec, step, if_neg hid', Option.bind_some, hes,
        List.foldl_cons, deleteStale, if_neg hid]
      rfl

/-- The steps of a sweep that nothing interrupts. -/
def sweepActions (f : Faults) (keys failing : List U64) : List Action :=
  let live := liveKubepodsCgroupIDs tree f
  if live = [] then [.snapshot f]
  else
    .snapshot f :: (keys.map .next ++ (.iterated ::
      ((keys.filter fun key => key ∉ live).map (fun id => .delete (id ∉ failing)) ++
        [.delete true])))

/-- Uninterrupted, the steps of a sweep do what `CleanStaleCgroupIDs` does. -/
theorem exec_sweep (f : Faults) (keys failing : List U64) (hkeys : ∀ key ∈ keys, key ∈ m) :
    ∃ es, exec step ⟨tree, m, w, .idle⟩ (sweepActions tree f keys failing) =
      some (⟨tree, (cleanStaleCgroupIDs tree f m keys failing).1, w, .idle⟩,
        es ++ [.returned (cleanStaleCgroupIDs tree f m keys failing).2]) := by
  unfold sweepActions cleanStaleCgroupIDs
  by_cases hlive : liveKubepodsCgroupIDs tree f = []
  · exact ⟨[], by simp [hlive, exec, step]⟩
  · obtain ⟨es, hes⟩ := exec_delete tree m w failing
      (keys.filter fun key => key ∉ liveKubepodsCgroupIDs tree f) 0
    refine ⟨es, ?_⟩
    simp only [hlive, if_false, exec, step, Option.bind_some, exec_append,
      exec_next tree m w _ _ keys hkeys, List.nil_append, List.append_nil, hes, Option.map_some]

/-- Uninterrupted, the steps of an update on the cgroup path write what
`UpdatePodParams` writes. -/
theorem exec_update (sweep : Stage) (f : Faults) (maps : Maps) (c : Update)
    (hopen : maps.taskParamsOpen) (hpath : c.TakesCgroupPath maps.cgroupParamsOpen)
    (hfound : (c.cgids.map Put.key).Perm (CgroupFs.resolvePodCgroupIDs tree f c.pod.uid)) :
    exec step ⟨tree, maps.kernel.cgroupParams, ⟨[], c.params⟩, sweep⟩
        (.resolve c.pod.uid f (c.cgids.map Put.key) c.params ::
          c.cgids.map fun p => .put p.err.isNone) =
      some (⟨tree, (updatePodParams maps c).1.kernel.cgroupParams, ⟨[], c.params⟩, sweep⟩, []) := by
  have hputs : ∀ (l : List (Put U64 String)) (m : Finmap fun _ : U64 => TaskParams),
      exec step ⟨tree, m, ⟨l.map Put.key, c.params⟩, sweep⟩
          (l.map fun p => .put p.err.isNone) =
        some (⟨tree, insertAll m (succeeded l) c.params, ⟨[], c.params⟩, sweep⟩, []) := by
    intro l
    induction l with
    | nil => exact fun m => rfl
    | cons p l ih =>
      intro m
      obtain ⟨k, _ | e⟩ := p
      · simp only [List.map_cons, exec, step, Option.bind_some, Option.isNone_none, if_true, ih]
        rfl
      · simp only [List.map_cons, exec, step, Option.bind_some, Option.isNone_some, ih]
        rfl
  rw [updatePodParams_cgroup maps c hopen hpath]
  simp only [exec, step, hfound, and_self, if_true, Option.bind_some, hputs, Option.map_some]
  rfl

end Alone

/-! ## When no live entry is deleted -/

/-- The failing calls of a snapshot hide no directory under the kubepods roots
that has an entry, or hide all directories; and while the sweep iterates, an
update writes only the entries of directories that are in the snapshot or gone. -/
def Careful (s : Node) : Action → Prop
  | .snapshot f =>
    (∀ d ∈ s.tree.dirs, ¬ seen f d.path) ∨
      ∀ d ∈ s.tree.dirs, underKubepods d.path → d.id ∈ s.cgroupParams → seen f d.path
  | .put true =>
    match s.sweep, s.writing.cgids with
    | .iterating live _, id :: _ => id ∈ live ∨ id ∉ kubepodsIds s.tree
    | _, _ => True
  | _ => True

instance (s : Node) : (a : Action) → Decidable (Careful s a)
  | .snapshot _ => inferInstanceAs (Decidable (_ ∨ _))
  | .put true =>
    match hsweep : s.sweep, hcgids : s.writing.cgids with
    | .iterating live _, id :: _ =>
      decidable_of_iff (id ∈ live ∨ id ∉ kubepodsIds s.tree)
        (by simp only [Careful, hsweep, hcgids])
    | .iterating _ _, [] => isTrue (by simp only [Careful, hsweep, hcgids])
    | .idle, _ => isTrue (by simp only [Careful, hsweep])
    | .deleting _ _, _ => isTrue (by simp only [Careful, hsweep])
  | .put false => isTrue trivial
  | .mkdir _ _ => isTrue trivial
  | .rmdir _ => isTrue trivial
  | .resolve _ _ _ _ => isTrue trivial
  | .remove _ => isTrue trivial
  | .next _ => isTrue trivial
  | .iterated => isTrue trivial
  | .delete _ => isTrue trivial

/-- An ID whose directory is gone for good: it was used, and is no longer that
of a directory under a kubepods root. -/
def Gone (s : Node) (id : U64) : Prop := id ∈ s.tree.usedIds ∧ id ∉ kubepodsIds s.tree

/-- What the sweep knows at each stage. -/
def Sound (s : Node) : Stage → Prop
  | .idle => True
  | .iterating live stale =>
    (∀ id ∈ s.cgroupParams, id ∈ live ∨ Gone s id) ∧ ∀ id ∈ stale, Gone s id
  | .deleting stale _ => ∀ id ∈ stale, Gone s id

structure Safe (s : Node) : Prop where
  entries : ∀ id ∈ s.cgroupParams, id ∈ s.tree.usedIds
  writing : ∀ id ∈ s.writing.cgids, id ∈ s.tree.usedIds
  sound : Sound s s.sweep

theorem Safe.soundAt {s : Node} (h : Safe s) {stage : Stage} (hsweep : s.sweep = stage) :
    Sound s stage := hsweep ▸ h.sound

theorem gone_mkdir {s : Node} {path : Path} {id : U64} {tree : CgroupTree}
    (h : mkdir s.tree path id = some tree) {k : U64} (hk : Gone s k) :
    Gone { s with tree := tree } k := by
  obtain ⟨hfresh, hdirs, hused⟩ := mkdir_spec h
  refine ⟨?_, fun hmem => ?_⟩
  · show k ∈ tree.usedIds
    rw [hused]
    exact List.mem_cons_of_mem _ hk.1
  · obtain ⟨d, hd, hunder, hid⟩ := mem_kubepodsIds.mp hmem
    rw [hdirs] at hd
    rcases List.mem_cons.mp hd with rfl | hd
    · have hkid : id = k := hid
      exact hfresh (hkid ▸ hk.1)
    · exact hk.2 (mem_kubepodsIds.mpr ⟨d, hd, hunder, hid⟩)

theorem gone_rmdir {s : Node} {path : Path} {tree : CgroupTree}
    (h : rmdir s.tree path = some tree) {k : U64} (hk : Gone s k) :
    Gone { s with tree := tree } k := by
  obtain ⟨hdirs, hused⟩ := rmdir_spec h
  refine ⟨?_, fun hmem => ?_⟩
  · show k ∈ tree.usedIds
    rw [hused]
    exact hk.1
  · obtain ⟨d, hd, hunder, hid⟩ := mem_kubepodsIds.mp hmem
    rw [hdirs] at hd
    exact hk.2 (mem_kubepodsIds.mpr ⟨d, List.mem_of_mem_filter hd, hunder, hid⟩)

/-- What the sweep knows stays true while gone directories stay gone and no
entry is added. -/
theorem Sound.mono {s t : Node} {stage : Stage} (h : Sound s stage)
    (hgone : ∀ id, Gone s id → Gone t id) (hsub : ∀ id ∈ t.cgroupParams, id ∈ s.cgroupParams) :
    Sound t stage := by
  cases stage with
  | idle => trivial
  | iterating live stale =>
    obtain ⟨hentries, hstale⟩ := h
    refine ⟨fun id hid => ?_, fun id hid => hgone id (hstale id hid)⟩
    rcases hentries id (hsub id hid) with hlive | hg
    · exact .inl hlive
    · exact .inr (hgone id hg)
  | deleting stale removed => exact fun id hid => hgone id (h id hid)

theorem mem_erase_sub {m : Finmap fun _ : U64 => TaskParams} {k : U64} :
    ∀ id ∈ m.erase k, id ∈ m := fun _ hid => (Finmap.mem_erase.mp hid).2

section Steps

variable {s t : Node} {es : List Event}

theorem Safe.put (h : Safe s) {ok : Bool} (hok : Careful s (.put ok))
    (hs : Sweep.step s (.put ok) = some (t, es)) : Safe t := by
  simp only [Sweep.step] at hs
  split at hs
  · cases hs
  · next id rest hcgids =>
    obtain ⟨rfl, rfl⟩ := Prod.mk.inj (Option.some.inj hs)
    have hused : id ∈ s.tree.usedIds := h.writing id (by rw [hcgids]; exact List.mem_cons_self)
    have hrest : ∀ k ∈ rest, k ∈ s.tree.usedIds := fun k hk =>
      h.writing k (by rw [hcgids]; exact List.mem_cons_of_mem _ hk)
    cases ok with
    | false => exact ⟨h.entries, hrest, h.sound.mono (fun _ hg => hg) fun _ hid => hid⟩
    | true =>
      refine ⟨?_, hrest, ?_⟩
      · intro k hk
        rcases Finmap.mem_insert.mp hk with rfl | hk
        · exact hused
        · exact h.entries k hk
      · cases hsweep : s.sweep with
        | idle => trivial
        | deleting stale removed => exact h.soundAt hsweep
        | iterating live stale =>
          have hsound := h.soundAt hsweep
          refine ⟨?_, hsound.2⟩
          intro k hk
          rcases Finmap.mem_insert.mp hk with rfl | hk
          · simp only [Careful, hsweep, hcgids] at hok
            exact hok.imp_right fun hgone => ⟨hused, hgone⟩
          · exact hsound.1 k hk

theorem Safe.snapshot (h : Safe s) {f : Faults} (hok : Careful s (.snapshot f))
    (hs : Sweep.step s (.snapshot f) = some (t, es)) : Safe t := by
  simp only [Sweep.step] at hs
  split at hs
  · split at hs
    · cases hs
      exact h
    · next hlive =>
      cases hs
      refine ⟨h.entries, h.writing, ?_, by simp⟩
      intro id hid
      rcases hok with hnone | hall
      · -- a walk that sees nothing leaves the snapshot empty
        obtain ⟨k, hk⟩ := List.exists_mem_of_ne_nil _ hlive
        obtain ⟨d, hd, hseen, -⟩ := mem_liveKubepods.mp hk
        exact absurd hseen (hnone d hd)
      · by_cases hex : id ∈ kubepodsIds s.tree
        · obtain ⟨d, hd, hunder, hdid⟩ := mem_kubepodsIds.mp hex
          exact .inl (mem_liveKubepods.mpr ⟨d, hd, hall d hd hunder (hdid ▸ hid), hdid⟩)
        · exact .inr ⟨h.entries id hid, hex⟩
  · cases hs

theorem Safe.next (h : Safe s) {key : U64} (hs : Sweep.step s (.next key) = some (t, es)) :
    Safe t := by
  simp only [Sweep.step] at hs
  split at hs
  · next live stale hsweep =>
    split at hs
    · next hkey =>
      cases hs
      have hsound := h.soundAt hsweep
      refine ⟨h.entries, h.writing, hsound.1, ?_⟩
      intro id hid
      split at hid
      · next hlive =>
        rcases List.mem_append.mp hid with hid | hid
        · exact hsound.2 id hid
        · rw [List.mem_singleton.mp hid]
          exact (hsound.1 key hkey).resolve_left hlive
      · exact hsound.2 id hid
    · cases hs
  · cases hs

theorem Safe.iterated (h : Safe s) (hs : Sweep.step s .iterated = some (t, es)) : Safe t := by
  simp only [Sweep.step] at hs
  split at hs
  · next live stale hsweep =>
    cases hs
    exact ⟨h.entries, h.writing, (h.soundAt hsweep).2⟩
  · cases hs

theorem Safe.delete (h : Safe s) {ok : Bool} (hs : Sweep.step s (.delete ok) = some (t, es)) :
    Safe t ∧ ∀ id, .deleted id ∈ es → id ∉ kubepodsIds s.tree := by
  simp only [Sweep.step] at hs
  split at hs
  · cases hs
    exact ⟨⟨h.entries, h.writing, trivial⟩, by simp⟩
  · next id rest removed hsweep =>
    have hsound := h.soundAt hsweep
    have hrest : ∀ k ∈ rest, Gone s k := fun k hk => hsound k (List.mem_cons_of_mem _ hk)
    split at hs
    · cases hs
      refine ⟨⟨fun k hk => h.entries k (mem_erase_sub k hk), h.writing, hrest⟩, ?_⟩
      intro k hk
      cases List.mem_singleton.mp hk
      exact (hsound id List.mem_cons_self).2
    · cases hs
      exact ⟨⟨h.entries, h.writing, hrest⟩, by simp⟩
  · cases hs

theorem Safe.step (h : Safe s) {a : Action} (hok : Careful s a)
    (hs : Sweep.step s a = some (t, es)) : Safe t := by
  cases a with
  | mkdir path id =>
    obtain ⟨tree, htree, heq⟩ := Option.map_eq_some_iff.mp hs
    cases heq
    have hused : ∀ k ∈ s.tree.usedIds, k ∈ tree.usedIds := fun k hk => by
      rw [(mkdir_spec htree).2.2]
      exact List.mem_cons_of_mem _ hk
    exact ⟨fun k hk => hused k (h.entries k hk), fun k hk => hused k (h.writing k hk),
      h.sound.mono (fun _ hg => gone_mkdir htree hg) fun _ hid => hid⟩
  | rmdir path =>
    obtain ⟨tree, htree, heq⟩ := Option.map_eq_some_iff.mp hs
    cases heq
    have hused := (rmdir_spec htree).2
    exact ⟨fun k hk => hused ▸ h.entries k hk, fun k hk => hused ▸ h.writing k hk,
      h.sound.mono (fun _ hg => gone_rmdir htree hg) fun _ hid => hid⟩
  | resolve uid f cgids tp =>
    simp only [Sweep.step] at hs
    split at hs
    · next hguard =>
      cases hs
      exact ⟨h.entries, fun k hk => resolve_known (hguard.2.mem_iff.mp hk),
        h.sound.mono (fun _ hg => hg) fun _ hid => hid⟩
    · cases hs
  | put ok => exact h.put hok hs
  | remove cgid =>
    cases hs
    exact ⟨fun k hk => h.entries k (mem_erase_sub k hk), h.writing,
      h.sound.mono (fun _ hg => hg) mem_erase_sub⟩
  | snapshot f => exact h.snapshot hok hs
  | next key => exact h.next hs
  | iterated => exact h.iterated hs
  | delete ok => exact (h.delete hs).1

end Steps

/-- In every run whose snapshots and writes are careful, the sweep deletes no
entry of a directory that exists under a kubepods root at that moment. -/
theorem deletes_only_gone {start s t : Node} {tr es : List Event} {ok : Bool}
    (hidle : start.sweep = .idle) (hnone : start.writing.cgids = [])
    (hentries : ∀ id ∈ start.cgroupParams, id ∈ start.tree.usedIds)
    (hrun : Run step Careful start tr s) (hs : step s (.delete ok) = some (t, es)) :
    ∀ id, .deleted id ∈ es → id ∉ kubepodsIds s.tree := by
  have h0 : Safe start := by
    refine ⟨hentries, ?_, ?_⟩
    · rw [hnone]
      simp
    · rw [hidle]
      trivial
  have hsafe : Safe s := hrun.invariant (I := fun _ s => Safe s) h0
    fun _ _ _ _ _ ih hok hstep => ih.step hok hstep
  exact (hsafe.delete hs).2

/-- One pod's directory, its entry, and an entry whose directory is gone. -/
def onePod : Node where
  tree :=
    { dirs := [⟨["kubepods.slice"], 1⟩, ⟨["kubepods-podu1.slice", "kubepods.slice"], 2⟩]
      usedIds := [1, 2, 9]
      known := by simp }
  cgroupParams := ((∅ : Finmap fun _ : U64 => TaskParams).insert 2 ⟨1000, 0⟩).insert 9 ⟨200, 0⟩
  writing := ⟨[], ⟨0, 0⟩⟩
  sweep := .idle

theorem deletes_only_gone_nine :
    ∃ s t, exec step onePod [.snapshot {}, .next 9, .next 2, .iterated] = some (s, []) ∧
      step s (.delete true) = some (t, [.deleted 9]) ∧ 9 ∉ kubepodsIds s.tree := by
  have hentries : ∀ id ∈ onePod.cgroupParams, id ∈ onePod.tree.usedIds := by
    intro id hid
    rcases Finmap.mem_insert.mp hid with rfl | hid
    · decide
    · rcases Finmap.mem_insert.mp hid with rfl | hid
      · decide
      · exact absurd hid Finmap.notMem_empty
  have hrun : Run step Careful onePod _ _ :=
    Run.of_isSome [.snapshot {}, .next 9, .next 2, .iterated] (by decide) (by decide)
  exact ⟨_, _, rfl, rfl, deletes_only_gone rfl rfl hentries hrun
    (rfl : step _ (.delete true) = some (_, [.deleted 9])) 9 (by decide)⟩

/-- A directory whose `Stat` fails during the snapshot, and a directory created
and written between the snapshot and the iteration: the sweep deletes their
entries. -/
theorem deletes_existing :
    (exec step onePod [.snapshot { stat := [["kubepods-podu1.slice", "kubepods.slice"]] }, .next 2,
        .iterated, .delete true]).map (fun r => (r.2, decide (2 ∈ kubepodsIds r.1.tree))) =
      some ([.deleted 2], true) ∧
    (exec step onePod [.snapshot {}, .mkdir ["kubepods-podu2.slice", "kubepods.slice"] 3,
        .resolve "u2" {} [3] ⟨9000, 0⟩, .put true, .next 3, .iterated, .delete true]).map
        (fun r => (r.2, decide (3 ∈ kubepodsIds r.1.tree))) =
      some ([.deleted 3], true) := by
  constructor <;> decide

end K8sSched.Agent.Sweep
