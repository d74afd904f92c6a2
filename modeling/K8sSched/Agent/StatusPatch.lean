import K8sSched.Agent.Policies
import K8sSched.Lib.MergePatch
import Mathlib.Data.List.AList

/-! # The status write-back

Each node reports in `status.nodeStatuses` how many pods every policy matches
there. `buildStatusPatch` of `internal/sched/agent.go` makes the merge patch,
`writebackPolicyStatus` sends it to all policies. The entries of other nodes and
the other fields stay as they are, but a merge does not replace the node's own
entry: it goes through its members too, so a policy that is no longer counted
keeps its last count. -/

namespace K8sSched.Agent.StatusPatch

open K8sSched.Agent.Policies K8sSched.Lib.GoMap K8sSched.Lib.MergePatch

inductive Scalar where
  | bool (b : Bool)
  | number (n : Int)
  | string (s : String)

/-- A `SchedulingPolicy` as the API server stores it. -/
abbrev Doc := Json Scalar

/-- A `map[string]int32`, by its entries in any order. -/
abbrev Counts := AList fun _ : String => BitVec 32

def count (n : BitVec 32) : Doc := .leaf (.number n.toInt)

/-- A nil map is marshalled as `null`. -/
def marshalCounts : Option Counts → Doc
  | none => .null
  | some counts => .obj (counts.entries.map fun e => (e.1, count e.2))

def buildStatusPatch (nodeName : String) (policyCounts : Option Counts) : Doc :=
  .obj [("status", .obj [("nodeStatuses", .obj [(nodeName, marshalCounts policyCounts)])])]

/-! ## The write-back -/

section

variable {σ : Type}

/-- `names` is what `PolicyNames` returns, the cached names in some order. -/
def policyCounts (r : Resolver σ) (names : List String) : Counts :=
  names.foldl (fun counts name => counts.insert name (activePodCount r name)) ∅

/-- The policies on the API server, by name; a patch of a policy that is not
there or among `failing` is only logged. -/
def patchPolicy (patch : Doc) (failing : List String) (api : Finmap fun _ : String => Doc)
    (name : String) : Finmap fun _ : String => Doc :=
  match api.lookup name with
  | none => api
  | some doc => if name ∈ failing then api else api.insert name (mergePatch doc patch)

def writebackPolicyStatus (r : Resolver σ) (nodeName : String) (names failing : List String)
    (api : Finmap fun _ : String => Doc) : Finmap fun _ : String => Doc :=
  if names = [] then api
  else
    names.foldl (patchPolicy (buildStatusPatch nodeName (some (policyCounts r names))) failing) api

theorem lookup_patchPolicy_ne (patch : Doc) (failing : List String)
    (api : Finmap fun _ : String => Doc) (name n : String) (hn : n ≠ name) :
    (patchPolicy patch failing api name).lookup n = api.lookup n := by
  unfold patchPolicy
  cases api.lookup name with
  | none => rfl
  | some doc =>
    by_cases hfail : name ∈ failing
    · simp [hfail]
    · simp [hfail, Finmap.lookup_insert_of_ne _ hn]

theorem lookup_patchPolicy (patch : Doc) (failing : List String)
    (api : Finmap fun _ : String => Doc) (name : String) :
    (patchPolicy patch failing api name).lookup name =
      (api.lookup name).map fun doc =>
        if name ∈ failing then doc else mergePatch doc patch := by
  unfold patchPolicy
  cases hdoc : api.lookup name with
  | none => simp [hdoc]
  | some doc =>
    by_cases hfail : name ∈ failing
    · simp [hfail, hdoc]
    · simp [hfail]

/-- The patch reaches the policies that are named and do not fail, and no
others. -/
theorem lookup_writeback (r : Resolver σ) (nodeName : String) {names : List String}
    (hnodup : names.Nodup) (failing : List String) (api : Finmap fun _ : String => Doc)
    (name : String) :
    (writebackPolicyStatus r nodeName names failing api).lookup name =
      (api.lookup name).map fun doc =>
        if name ∈ names ∧ name ∉ failing then
          mergePatch doc (buildStatusPatch nodeName (some (policyCounts r names)))
        else doc := by
  unfold writebackPolicyStatus
  split
  · next hnil => simp [hnil]
  · have hframe := lookup_patchPolicy_ne
      (buildStatusPatch nodeName (some (policyCounts r names))) failing
    by_cases hname : name ∈ names
    · refine (read_foldl_of_mem id (fun api n => Finmap.lookup n api) _ hframe
        (lookup_patchPolicy _ failing) (by rwa [List.map_id]) hname api).trans ?_
      simp [hname]
    · refine (read_foldl_of_not_mem id (fun api n => Finmap.lookup n api) hframe
        (by rwa [List.map_id]) api).trans ?_
      simp [hname]

end

/-! ## The merged status -/

/-- The node's entry reads as `policyCounts`, a nil map being no entry. -/
def EntryIs (nodeName : String) (policyCounts : Option Counts) (doc : Doc) : Prop :=
  match policyCounts with
  | none => doc.get ["status", "nodeStatuses", nodeName] = none
  | some counts => ∃ ms, doc.get ["status", "nodeStatuses", nodeName] = some (.obj ms) ∧
      ∀ policy, ms.lookup policy = (counts.lookup policy).map count

/-- That, and the rest is as before. -/
structure Applied (nodeName : String) (policyCounts : Option Counts) (old new : Doc) : Prop where
  entry : EntryIs nodeName policyCounts new
  nodes : ∀ node ≠ nodeName, new.get ["status", "nodeStatuses", node] =
    old.get ["status", "nodeStatuses", node]
  fields : ∀ field ≠ "nodeStatuses", new.get ["status", field] = old.get ["status", field]
  rest : ∀ field ≠ "status", new.get [field] = old.get [field]

theorem lookup_marshal (counts : Counts) (policy : String) :
    (counts.entries.map fun e => (e.1, count e.2)).lookup policy =
      (counts.lookup policy).map count := by
  rw [AList.lookup]
  induction counts.entries with
  | nil => rfl
  | cons e entries ih =>
    obtain ⟨k, n⟩ := e
    rw [List.map_cons, lookup_cons_eq, ih]
    by_cases hk : policy = k
    · subst hk
      rw [if_pos rfl, List.dlookup_cons_eq]
      rfl
    · rw [if_neg hk, List.dlookup_cons_ne _ _ hk]

theorem marshal_nodup (counts : Counts) :
    ((counts.entries.map fun e => (e.1, count e.2)).map Prod.fst).Nodup := by
  rw [List.map_map]
  exact counts.nodupKeys

section

variable (doc : Doc) (nodeName : String) (policyCounts : Option Counts)

/-- Below `nodeStatuses` the node's entry is merged. -/
theorem get_nodeStatuses (path : List String) :
    (mergePatch doc (buildStatusPatch nodeName policyCounts)).get
        ("status" :: "nodeStatuses" :: path) =
      (mergePatch ((doc.get ["status", "nodeStatuses"]).getD .null)
        (.obj [(nodeName, marshalCounts policyCounts)])).get path := by
  rw [buildStatusPatch, get_merge_obj, get_merge_obj, get_append_getD]
  rfl

theorem patched_nodes {node : String} (hnode : node ≠ nodeName) :
    (mergePatch doc (buildStatusPatch nodeName policyCounts)).get
        ["status", "nodeStatuses", node] = doc.get ["status", "nodeStatuses", node] := by
  rw [get_nodeStatuses, get_merge_ne _ _ hnode, get_append_getD]
  rfl

theorem patched_fields {field : String} (hfield : field ≠ "nodeStatuses") (path : List String) :
    (mergePatch doc (buildStatusPatch nodeName policyCounts)).get ("status" :: field :: path) =
      doc.get ("status" :: field :: path) := by
  rw [buildStatusPatch, get_merge_obj, get_merge_ne _ _ hfield, get_append_getD]
  rfl

theorem patched_rest {field : String} (hfield : field ≠ "status") (path : List String) :
    (mergePatch doc (buildStatusPatch nodeName policyCounts)).get (field :: path) =
      doc.get (field :: path) :=
  get_merge_ne _ _ hfield _

/-- So the node's own entry decides. -/
theorem applied_iff :
    Applied nodeName policyCounts doc (mergePatch doc (buildStatusPatch nodeName policyCounts)) ↔
      EntryIs nodeName policyCounts (mergePatch doc (buildStatusPatch nodeName policyCounts)) where
  mp := Applied.entry
  mpr hentry :=
    { entry := hentry
      nodes := fun _ h => patched_nodes doc nodeName policyCounts h
      fields := fun _ h => patched_fields doc nodeName policyCounts h []
      rest := fun _ h => patched_rest doc nodeName policyCounts h [] }

end

/-- The members of the node's entry: the new counts, and what was there under
other names. -/
theorem patched_entry (doc : Doc) (nodeName : String) (counts : Counts) :
    ∃ ms, (mergePatch doc (buildStatusPatch nodeName (some counts))).get
        ["status", "nodeStatuses", nodeName] = some (.obj ms) ∧
      ∀ policy, ms.lookup policy =
        ((counts.lookup policy).map count).or
          (doc.get ["status", "nodeStatuses", nodeName, policy]) := by
  rw [get_nodeStatuses, marshalCounts, get_merge_obj, get_append_getD]
  refine ⟨_, by rw [Json.get, mergePatch], fun policy => ?_⟩
  rw [lookup_mergeMembers (marshal_nodup counts), lookup_marshal]
  cases counts.lookup policy with
  | some n => rfl
  | none =>
    have hold := get_append_getD doc ["status", "nodeStatuses", nodeName] policy []
    rw [Json.get_cons] at hold
    simpa [mergeMember, Json.get] using hold

theorem patched_policy (doc : Doc) (nodeName policy : String) (counts : Counts) :
    (mergePatch doc (buildStatusPatch nodeName (some counts))).get
        ["status", "nodeStatuses", nodeName, policy] =
      ((counts.lookup policy).map count).or
        (doc.get ["status", "nodeStatuses", nodeName, policy]) := by
  obtain ⟨ms, hms, hlookup⟩ := patched_entry doc nodeName counts
  have hread := get_append_getD (mergePatch doc (buildStatusPatch nodeName (some counts)))
    ["status", "nodeStatuses", nodeName] policy []
  rw [hms, Option.getD_some, Json.get_cons] at hread
  exact hread.symm.trans ((Option.bind_fun_some _).trans (hlookup policy))

/-- However often a node reports, a name it has reported stays in its entry. -/
theorem entry_never_shrinks (doc : Doc) (nodeName policy : String) (reports : List Counts)
    (h : (doc.get ["status", "nodeStatuses", nodeName, policy]).isSome) :
    ((reports.foldl (fun doc counts => mergePatch doc (buildStatusPatch nodeName (some counts)))
      doc).get ["status", "nodeStatuses", nodeName, policy]).isSome := by
  induction reports generalizing doc with
  | nil => exact h
  | cons counts reports ih =>
    refine ih _ ?_
    rw [patched_policy]
    cases counts.lookup policy with
    | some n => rfl
    | none => exact h

theorem entryIs_iff (doc : Doc) (nodeName : String) (counts : Counts) :
    EntryIs nodeName (some counts)
        (mergePatch doc (buildStatusPatch nodeName (some counts))) ↔
      ∀ policy, (doc.get ["status", "nodeStatuses", nodeName, policy]).isSome →
        policy ∈ counts := by
  obtain ⟨ms, hms, hlookup⟩ := patched_entry doc nodeName counts
  constructor
  · intro h policy hold
    obtain ⟨ms', hms', hexact⟩ := h
    cases hms'.symm.trans hms
    by_contra hnot
    have hkept := (hexact policy).symm.trans (hlookup policy)
    rw [AList.lookup_eq_none.mpr hnot] at hkept
    rw [show doc.get ["status", "nodeStatuses", nodeName, policy] = none from hkept.symm] at hold
    cases hold
  · intro h
    refine ⟨ms, hms, fun policy => ?_⟩
    rw [hlookup policy]
    cases hc : counts.lookup policy with
    | some n => rfl
    | none =>
      have hnot := AList.lookup_eq_none.mp hc
      have hold : doc.get ["status", "nodeStatuses", nodeName, policy] = none :=
        Option.not_isSome_iff_eq_none.mp fun hsome => hnot (h policy hsome)
      rw [hold]
      rfl

/-- The patch does what it is for exactly when the node's entry so far names no
policy that is not counted any more; a nil map always removes the entry. -/
theorem status_patch_iff (doc : Doc) (nodeName : String) (policyCounts : Option Counts) :
    Applied nodeName policyCounts doc
        (mergePatch doc (buildStatusPatch nodeName policyCounts)) ↔
      ∀ counts ∈ policyCounts, ∀ policy,
        (doc.get ["status", "nodeStatuses", nodeName, policy]).isSome → policy ∈ counts := by
  rw [applied_iff]
  cases policyCounts with
  | none =>
    refine iff_of_true ?_ (by simp)
    show (mergePatch doc (buildStatusPatch nodeName none)).get _ = none
    rw [get_nodeStatuses]
    exact get_merge_null _ _
  | some counts => simp [entryIs_iff]

/-- The policy `batch` was deleted after the node had reported on it. -/
def reported : Doc :=
  .obj [("status", .obj [("nodeStatuses",
    .obj [("node-1", .obj [("batch", count 2), ("latency", count 1)])])])]

def latencyOnly : Counts := AList.singleton "latency" 3

/-- Its count stays. -/
theorem deleted_policy_stays :
    (mergePatch reported (buildStatusPatch "node-1" (some latencyOnly))).get
        ["status", "nodeStatuses", "node-1", "batch"] = some (count 2) ∧
      ¬ Applied "node-1" (some latencyOnly) reported
        (mergePatch reported (buildStatusPatch "node-1" (some latencyOnly))) := by
  have hstays : (mergePatch reported (buildStatusPatch "node-1" (some latencyOnly))).get
      ["status", "nodeStatuses", "node-1", "batch"] = some (count 2) := rfl
  refine ⟨hstays, fun h => ?_⟩
  have hcounted := (entryIs_iff reported "node-1" latencyOnly).mp h.entry "batch" rfl
  exact absurd hcounted (by decide)

end K8sSched.Agent.StatusPatch
