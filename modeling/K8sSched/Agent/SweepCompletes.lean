import K8sSched.Agent.Sweep

/-! # What a complete sweep leaves

The maps are pinned, so an agent may find any entries in `cgroup_params` when it
takes over. A sweep that iterates over all of them and whose deletions succeed
leaves no entry without a directory: each one left belongs to a directory that
existed at some moment since the snapshot, or was about to be written then. The
other goroutine may update and remove entries meanwhile, and directories come
and go. -/

namespace K8sSched.Agent.SweepCompletes
open K8sSched.Bpf.Params K8sSched.Agent.CgroupFs K8sSched.Agent.Sweep K8sSched.Lib.Runs

/-- One sweep that began with the entries `start`: its iteration reaches every
one of them that is still there, and no `Delete` fails but for a missing key. -/
def Complete (start : Finset U64) (s : Node) : Sweep.Action → Prop
  | .iterated =>
    match s.sweep with
    | .iterating live stale => (start ∩ s.cgroupParams.keys) \ live.toFinset ⊆ stale.toFinset
    | _ => True
  | .delete ok => ok = true
  | .snapshot _ => False
  | _ => True

instance (start : Finset U64) (s : Node) : (a : Sweep.Action) → Decidable (Complete start s a)
  | .iterated =>
    match hsweep : s.sweep with
    | .iterating live stale =>
      decidable_of_iff ((start ∩ s.cgroupParams.keys) \ live.toFinset ⊆ stale.toFinset)
        (by simp only [Complete, hsweep])
    | .idle => isTrue (by simp only [Complete, hsweep])
    | .deleting _ _ => isTrue (by simp only [Complete, hsweep])
  | .delete ok => inferInstanceAs (Decidable (ok = true))
  | .snapshot _ => isFalse id
  | .mkdir _ _ => isTrue trivial
  | .rmdir _ => isTrue trivial
  | .resolve _ _ _ _ => isTrue trivial
  | .put _ => isTrue trivial
  | .remove _ => isTrue trivial
  | .next _ => isTrue trivial

/-- On the way from `s` to `t` a directory had the ID, or it was about to be
written in `s`. -/
def Existed (ok : Node → Sweep.Action → Prop) (s : Node) (tr : List Event) (t : Node) (id : U64) :
    Prop :=
  id ∈ s.writing.cgids ∨ ∃ u tr₁ tr₂, Run step ok s tr₁ u ∧ Run step ok u tr₂ t ∧
    tr = tr₁ ++ tr₂ ∧ ∃ d ∈ u.tree.dirs, d.id = id

theorem resolve_dir {tree : CgroupTree} {f : Faults} {uid : String} {id : U64}
    (h : id ∈ resolvePodCgroupIDs tree f uid) : ∃ d ∈ tree.dirs, d.id = id := by
  unfold resolvePodCgroupIDs at h
  split at h
  · cases h
  · split at h
    · cases h
    · obtain ⟨d, hd, hid⟩ := List.mem_map.mp h
      exact ⟨d, List.mem_of_mem_filter hd, hid⟩

section Steps

variable {ok : Node → Sweep.Action → Prop} {start : Finset U64} {s t u : Node}
  {tr es : List Event} {a : Sweep.Action} {id : U64}

theorem Existed.now (h : Run step ok s tr t) (hid : ∃ d ∈ t.tree.dirs, d.id = id) :
    Existed ok s tr t id :=
  .inr ⟨t, tr, [], h, .refl, by simp, hid⟩

theorem Existed.tail (h : Existed ok s tr t id) (hok : ok t a) (hs : step t a = some (u, es)) :
    Existed ok s (tr ++ es) u id := by
  rcases h with hw | ⟨v, tr₁, tr₂, h₁, h₂, rfl, hd⟩
  · exact .inl hw
  · exact .inr ⟨v, tr₁, tr₂ ++ es, h₁, h₂.tail hok hs, List.append_assoc .., hd⟩

/-- The sweep still has to deal with an old entry. -/
def Due (id : U64) : Stage → Prop
  | .idle => False
  | .iterating _ _ => True
  | .deleting stale _ => id ∈ stale

/-- What is known of the IDs while the sweep goes on, `known` being those with a
directory since the snapshot. -/
structure Inv (start : Finset U64) (known : U64 → Prop) (t : Node) : Prop where
  writing : ∀ id ∈ t.writing.cgids, known id
  live : ∀ live stale, t.sweep = .iterating live stale → ∀ id ∈ live, known id
  entries : ∀ id ∈ t.cgroupParams, known id ∨ (id ∈ start ∧ Due id t.sweep)

theorem Inv.mono {known known' : U64 → Prop} (h : Inv start known t)
    (himp : ∀ id, known id → known' id) : Inv start known' t where
  writing := fun id hid => himp id (h.writing id hid)
  live := fun live stale hsweep id hid => himp id (h.live live stale hsweep id hid)
  entries := fun id hid => (h.entries id hid).imp_left (himp id)

variable {known : U64 → Prop}

theorem Inv.put (h : Inv start known s) {b : Bool} (hs : step s (.put b) = some (t, es)) :
    Inv start known t := by
  simp only [step] at hs
  split at hs
  · cases hs
  · next id rest hcgids =>
    cases hs
    have hhead : known id := h.writing id (by rw [hcgids]; exact List.mem_cons_self)
    refine ⟨fun k hk => h.writing k (by rw [hcgids]; exact List.mem_cons_of_mem _ hk), h.live, ?_⟩
    intro k hk
    cases b with
    | false => exact h.entries k hk
    | true =>
      rcases Finmap.mem_insert.mp hk with rfl | hk
      · exact .inl hhead
      · exact h.entries k hk

theorem Inv.next (h : Inv start known s) {key : U64} (hs : step s (.next key) = some (t, es)) :
    Inv start known t := by
  simp only [step] at hs
  split at hs
  · next live stale hsweep =>
    split at hs
    · cases hs
      refine ⟨h.writing, ?_, fun k hk => ?_⟩
      · intro live' stale' heq
        cases heq
        exact h.live live stale hsweep
      · have hk' := h.entries k hk
        rw [hsweep] at hk'
        exact hk'
    · cases hs
  · cases hs

/-- Once the iteration has reached all old entries, one that is not stale was
live. -/
theorem Inv.iterated (h : Inv start known s) (hok : Complete start s .iterated)
    (hs : step s .iterated = some (t, es)) : Inv start known t := by
  simp only [step] at hs
  split at hs
  · next live stale hsweep =>
    cases hs
    simp only [Complete, hsweep] at hok
    refine ⟨h.writing, by simp, fun k hk => ?_⟩
    rcases h.entries k hk with hknown | ⟨hstart, -⟩
    · exact .inl hknown
    · by_cases hlive : k ∈ live
      · exact .inl (h.live live stale hsweep k hlive)
      · have hmem : k ∈ (start ∩ s.cgroupParams.keys) \ live.toFinset := by
          simp only [Finset.mem_sdiff, Finset.mem_inter, List.mem_toFinset]
          exact ⟨⟨hstart, Finmap.mem_keys.mpr hk⟩, hlive⟩
        exact .inr ⟨hstart, List.mem_toFinset.mp (hok hmem)⟩
  · cases hs

theorem Inv.delete (h : Inv start known s) (hs : step s (.delete true) = some (t, es)) :
    Inv start known t := by
  simp only [step] at hs
  split at hs
  · next removed hsweep =>
    cases hs
    refine ⟨h.writing, by simp, fun k hk => ?_⟩
    have hk' := h.entries k hk
    rw [hsweep] at hk'
    simpa [Due] using hk'
  · next id rest removed hsweep =>
    -- an entry that was due and is not the one deleted is in the rest
    have hrest : ∀ k ∈ s.cgroupParams, k ≠ id →
        known k ∨ (k ∈ start ∧ Due k (.deleting rest (removed + 1))) := by
      intro k hk hne
      have hk' := h.entries k hk
      rw [hsweep] at hk'
      refine hk'.imp_right fun hdue => ⟨hdue.1, ?_⟩
      exact (List.mem_cons.mp hdue.2).resolve_left hne
    split at hs
    · cases hs
      refine ⟨h.writing, by simp, fun k hk => ?_⟩
      obtain ⟨hne, hk⟩ := Finmap.mem_erase.mp hk
      exact hrest k hk hne
    · next hmissing =>
      cases hs
      refine ⟨h.writing, by simp, fun k hk => hrest k hk ?_⟩
      intro heq
      exact hmissing ⟨trivial, heq ▸ hk⟩
  · cases hs

theorem Inv.step (h : Inv start known s) (hok : Complete start s a)
    (hdirs : ∀ d ∈ s.tree.dirs, known d.id) (hs : Sweep.step s a = some (t, es)) :
    Inv start known t := by
  cases a with
  | mkdir path id =>
    obtain ⟨tree, -, heq⟩ := Option.map_eq_some_iff.mp hs
    cases heq
    exact ⟨h.writing, h.live, h.entries⟩
  | rmdir path =>
    obtain ⟨tree, -, heq⟩ := Option.map_eq_some_iff.mp hs
    cases heq
    exact ⟨h.writing, h.live, h.entries⟩
  | resolve uid f cgids tp =>
    simp only [Sweep.step] at hs
    split at hs
    · next hguard =>
      cases hs
      refine ⟨fun id hid => ?_, h.live, h.entries⟩
      obtain ⟨d, hd, rfl⟩ := resolve_dir (hguard.2.mem_iff.mp hid)
      exact hdirs d hd
    · cases hs
  | put b => exact h.put hs
  | remove cgid =>
    cases hs
    exact ⟨h.writing, h.live, fun id hid => h.entries id (mem_erase_sub id hid)⟩
  | snapshot f => exact hok.elim
  | next key => exact h.next hs
  | iterated => exact h.iterated hok hs
  | delete b =>
    cases (hok : b = true)
    exact h.delete hs

end Steps

/-! ## A whole sweep -/

theorem snapshot_inv {s₀ s : Node} {f : Faults} {known : U64 → Prop}
    (hs : step s₀ (.snapshot f) = some (s, [])) (hdirs : ∀ d ∈ s.tree.dirs, known d.id)
    (hwriting : ∀ id ∈ s.writing.cgids, known id) :
    Inv s.cgroupParams.keys known s := by
  simp only [step] at hs
  split at hs
  · split at hs
    · cases hs
    · cases hs
      refine ⟨hwriting, ?_, fun id hid => .inr ⟨Finmap.mem_keys.mpr hid, trivial⟩⟩
      intro live stale heq id hid
      cases heq
      obtain ⟨d, hd, -, rfl⟩ := mem_liveKubepods.mp hid
      exact hdirs d hd
  · cases hs

/-- Whatever the map held before, when a complete sweep returns, each entry is
that of a directory that existed since the snapshot, or of an ID that was about
to be written then. -/
theorem swept_entries_existed {s₀ s t : Node} {f : Faults} {tr : List Event}
    (hsnap : step s₀ (.snapshot f) = some (s, []))
    (h : Run step (Complete s.cgroupParams.keys) s tr t) (hidle : t.sweep = .idle) :
    ∀ id ∈ t.cgroupParams, Existed (Complete s.cgroupParams.keys) s tr t id := by
  have hinv := h.invariant (I := fun tr t => Run step (Complete s.cgroupParams.keys) s tr t ∧
      Inv s.cgroupParams.keys (Existed (Complete s.cgroupParams.keys) s tr t) t)
    ⟨.refl, snapshot_inv hsnap (fun d hd => .now .refl ⟨d, hd, rfl⟩) fun _ hid => .inl hid⟩ ?_
  · intro id hid
    have hid' := hinv.2.entries id hid
    rw [hidle] at hid'
    exact hid'.resolve_right fun hdue => hdue.2
  · intro tr t a u es hI hok hs
    obtain ⟨hrun, hI⟩ := hI
    have hnow := hI.step hok (fun d hd => .now hrun ⟨d, hd, rfl⟩) hs
    exact ⟨hrun.tail hok hs, hnow.mono fun id hid => hid.tail hok hs⟩

/-- While the sweep goes on, a pod's directory is made and written, and the one
that had an entry disappears. -/
def during : List Sweep.Action :=
  [.next 9, .mkdir ["kubepods-podu2.slice", "kubepods.slice"] 3, .next 2,
    .resolve "u2" {} [3] ⟨9000, 0⟩, .rmdir ["kubepods-podu1.slice", "kubepods.slice"], .iterated,
    .put true, .delete true, .delete true]

theorem swept_entries_existed_during :
    ∃ s t tr, step onePod (.snapshot {}) = some (s, []) ∧ t.sweep = .idle ∧
      9 ∈ s.cgroupParams ∧ 9 ∉ t.cgroupParams ∧ 3 ∈ t.cgroupParams ∧
      Existed (Complete s.cgroupParams.keys) s tr t 3 := by
  have h : Run step (Complete onePod.cgroupParams.keys)
      { onePod with sweep := .iterating (liveKubepodsCgroupIDs onePod.tree {}) [] } _ _ :=
    Run.of_isSome during (by decide) (by decide)
  exact ⟨_, _, _, rfl, rfl, by decide, by decide, by decide,
    swept_entries_existed (rfl : step onePod (.snapshot {}) = some (_, [])) h rfl 3 (by decide)⟩

end K8sSched.Agent.SweepCompletes
