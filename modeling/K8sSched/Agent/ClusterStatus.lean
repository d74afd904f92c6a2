import K8sSched.Agent.ApiServer
import K8sSched.Agent.StatusPatch
import K8sSched.Lib.Runs

/-! # The status of a policy across the cluster

Every agent runs `writebackPolicyStatus` of `internal/sched/agent.go` on its own
ticker: it lists the policies it knows, asks for the count of each, and sends the
one patch it makes of the counts to each policy in turn, while the other agents
do the same and clients create, edit and delete policies and write their status. A
policy's `nodeStatuses` then are a table with one cell per node and policy, a cell
holds what was written into it last, and nothing but the cells is written by the
agents. -/

namespace K8sSched.Agent.ClusterStatus
open K8sSched.Agent.ApiServer K8sSched.Agent.Policies K8sSched.Agent.StatusPatch
open K8sSched.Lib.MergePatch K8sSched.Lib.Runs

/-- Where an agent is in `writebackPolicyStatus`. -/
inductive Pc where
  | idle
  /-- The loop over `ActivePodCount`. -/
  | counting (names todo : List String) (counts : Counts)
  /-- The loop over `Patch`. -/
  | sending (counts : Counts) (todo : List String)

structure Cluster (α σ : Type) where
  server : Server Doc
  resolver : α → Resolver σ
  pc : α → Pc

inductive Event (α : Type) where
  /-- A write-back begins. -/
  | began (a : α)
  /-- `ActivePodCount` has returned. -/
  | counted (a : α) (policy : String) (n : BitVec 32)
  /-- The patch with these counts has been applied to the policy. -/
  | patched (a : α) (policy : String) (counts : Counts)
  | created (policy : String) (doc : Doc)
  | edited (policy : String) (doc : Doc)
  /-- Another client has written the status. -/
  | reported (policy : String) (doc : Doc)
  | deleted (policy : String)

/-- A request that writes comes with the resource version the server gives the
object. -/
inductive Action (α σ : Type) where
  /-- The resolver of an agent moves on. -/
  | resolve (a : α) (r : Resolver σ)
  /-- The ticker fires; `names` is what `PolicyNames` returns. -/
  | tick (a : α) (names : List String)
  | count (a : α)
  /-- Without a version the request fails. -/
  | send (a : α) (version : Option String)
  | create (policy version : String) (doc : Doc)
  | edit (policy version : String) (doc : Doc)
  | report (policy version : String) (doc : Doc)
  | delete (policy : String)

/-- What the API server stores of a new object: the status is a subresource, so
it is not taken from the request. -/
def withoutStatus (doc : Doc) : Doc := .obj (remove "status" doc.members)

/-- `doc` with the status of `other`: an update of the object keeps the status that
is stored, an update of the status keeps the rest. -/
def withStatusOf (other doc : Doc) : Doc :=
  match other.members.lookup "status" with
  | none => withoutStatus doc
  | some status => .obj (set "status" status doc.members)

section

variable {α σ : Type} [DecidableEq α]

def Cluster.goto (c : Cluster α σ) (a : α) (pc : Pc) : Cluster α σ :=
  { c with pc := Function.update c.pc a pc }

def step (nodeName : α → String) (c : Cluster α σ) :
    Action α σ → Option (Cluster α σ × List (Event α))
  | .resolve a r => some ({ c with resolver := Function.update c.resolver a r }, [])
  | .tick a names =>
    match c.pc a with
    | .idle =>
      if names.Nodup ∧ names.toFinset = (c.resolver a).policies.keys then
        some (if names = [] then (c, []) else (c.goto a (.counting names names ∅), [.began a]))
      else none
    | _ => none
  | .count a =>
    match c.pc a with
    | .counting names (name :: todo) counts =>
      some (c.goto a (.counting names todo
          (counts.insert name (activePodCount (c.resolver a) name))),
        [.counted a name (activePodCount (c.resolver a) name)])
    | .counting names [] counts => some (c.goto a (.sending counts names), [])
    | _ => none
  | .send a version =>
    match c.pc a with
    | .sending counts (name :: todo) =>
      match version, c.server.current.lookup name with
      | some version, some u =>
        (c.server.write ⟨name, version,
            mergePatch u.content (buildStatusPatch (nodeName a) (some counts))⟩).map fun server =>
          ({ c with server := server }.goto a (.sending counts todo), [.patched a name counts])
      | _, _ => some (c.goto a (.sending counts todo), [])
    | .sending _ [] => some (c.goto a .idle, [])
    | _ => none
  | .create policy version doc =>
    if policy ∈ c.server.current then none
    else
      (c.server.write ⟨policy, version, withoutStatus doc⟩).map fun server =>
        ({ c with server := server }, [.created policy doc])
  | .edit policy version doc =>
    (c.server.current.lookup policy).bind fun u =>
      (c.server.write ⟨policy, version, withStatusOf u.content doc⟩).map fun server =>
        ({ c with server := server }, [.edited policy doc])
  | .report policy version doc =>
    (c.server.current.lookup policy).bind fun u =>
      (c.server.write ⟨policy, version, withStatusOf doc u.content⟩).map fun server =>
        ({ c with server := server }, [.reported policy doc])
  | .delete policy =>
    if policy ∈ c.server.current then
      some ({ c with server := c.server.remove policy }, [.deleted policy])
    else none

end

/-! ## The table -/

def valueAt (server : Server Doc) (policy : String) (path : List String) : Option Doc :=
  (server.current.lookup policy).bind fun u => u.content.get path

/-- What an event does to the value at a path, given what a patch does to it. -/
def write {α : Type} (patch : α → Counts → Option Doc → Option Doc) (policy : String)
    (path : List String) (old : Option Doc) : Event α → Option Doc
  | .patched a p counts => if p = policy then patch a counts old else old
  | .created p doc =>
    if p = policy then (if path.head? = some "status" then none else doc.get path) else old
  | .edited p doc => if p = policy ∧ path.head? ≠ some "status" then doc.get path else old
  | .reported p doc => if p = policy ∧ path.head? = some "status" then doc.get path else old
  | .deleted p => if p = policy then none else old
  | .began _ | .counted .. => old

/-- The cell of a node and a policy. -/
def cell (node name : String) : List String := ["status", "nodeStatuses", node, name]

/-- What a patch does to a cell. -/
def tally {α : Type} (nodeName : α → String) (node name : String) (a : α) (counts : Counts)
    (old : Option Doc) : Option Doc :=
  if nodeName a = node then ((counts.lookup name).map StatusPatch.count).or old else old

/-- The paths beside `nodeStatuses`. -/
inductive Beside : List String → Prop
  | field {field : String} {path : List String} (h : field ≠ "status") : Beside (field :: path)
  | status {field : String} {path : List String} (h : field ≠ "nodeStatuses") :
      Beside ("status" :: field :: path)

/-- What a patch does there. -/
def leave {α : Type} (_ : α) (_ : Counts) (old : Option Doc) : Option Doc := old

section Docs

variable (other doc : Doc) {path : List String}

theorem get_withoutStatus (hne : path ≠ []) : (withoutStatus doc).get path =
    if path.head? = some "status" then none else doc.get path := by
  cases path with
  | nil => exact absurd rfl hne
  | cons field path =>
    by_cases hf : field = "status"
    · simp [hf, Json.get_cons, withoutStatus, Json.members]
    · simp [hf, Json.get_cons, withoutStatus, Json.members]

theorem get_withStatusOf (hne : path ≠ []) : (withStatusOf other doc).get path =
    if path.head? = some "status" then other.get path else doc.get path := by
  unfold withStatusOf
  cases path with
  | nil => exact absurd rfl hne
  | cons field path =>
    split
    · next hnone =>
      rw [get_withoutStatus doc (by simp)]
      by_cases hf : field = "status"
      · simp [hf, Json.get_cons, hnone]
      · simp [hf]
    · next status hstatus =>
      by_cases hf : field = "status"
      · rw [hf, Json.get_cons, Json.get_cons, hstatus]
        simp [Json.members]
      · simp [hf, Json.get_cons, Json.members]

end Docs

section Merges

variable {α : Type} (nodeName : α → String)

/-- A merge of an agent's patch does this to the value at a path. -/
def Merges (path : List String)
    (patch : α → Counts → Option Doc → Option Doc) : Prop :=
  ∀ a counts (doc : Doc),
    (mergePatch doc (buildStatusPatch (nodeName a) (some counts))).get path =
      patch a counts (doc.get path)

theorem merges_cell (node name : String) :
    Merges nodeName (cell node name) (tally nodeName node name) := by
  intro a counts doc
  unfold tally cell
  split
  · next hn =>
    rw [← hn]
    exact patched_policy doc _ name counts
  · next hn =>
    rw [get_nodeStatuses, get_merge_ne _ _ (Ne.symm hn), get_append_getD]
    rfl

theorem merges_beside {path : List String} (h : Beside path) :
    Merges nodeName path leave := by
  intro a counts doc
  cases h with
  | field hf => exact patched_rest doc _ _ hf _
  | status hf => exact patched_fields doc _ _ hf _

end Merges

theorem valueAt_write {s t : Server Doc} {u : Object Doc} (h : s.write u = some t)
    (policy : String) (path : List String) :
    valueAt t policy path =
      if u.name = policy then u.content.get path else valueAt s policy path := by
  unfold valueAt
  rw [Server.lookup_write h]
  split
  · rfl
  · rfl

section Step

variable {α σ : Type} [DecidableEq α] {nodeName : α → String} {c d : Cluster α σ}
  {a : Action α σ} {es : List (Event α)}

/-- Every way a step can go. -/
inductive Does (nodeName : α → String) (c : Cluster α σ) : Cluster α σ → List (Event α) → Prop
  | resolve {a : α} {r : Resolver σ} :
      Does nodeName c { c with resolver := Function.update c.resolver a r } []
  /-- A write-back without policies. -/
  | skip : Does nodeName c c []
  | tick {a : α} {names : List String} (hpc : c.pc a = .idle) :
      Does nodeName c (c.goto a (.counting names names ∅)) [.began a]
  | count {a : α} {names todo : List String} {name : String} {counts : Counts}
      (hpc : c.pc a = .counting names (name :: todo) counts) :
      Does nodeName c (c.goto a (.counting names todo
          (counts.insert name (activePodCount (c.resolver a) name))))
        [.counted a name (activePodCount (c.resolver a) name)]
  | build {a : α} {names : List String} {counts : Counts}
      (hpc : c.pc a = .counting names [] counts) :
      Does nodeName c (c.goto a (.sending counts names)) []
  | patch {a : α} {counts : Counts} {name version : String} {todo : List String}
      {u : Object Doc} {server : Server Doc} (hpc : c.pc a = .sending counts (name :: todo))
      (hu : c.server.current.lookup name = some u)
      (hw : c.server.write ⟨name, version,
        mergePatch u.content (buildStatusPatch (nodeName a) (some counts))⟩ = some server) :
      Does nodeName c ({ c with server := server }.goto a (.sending counts todo))
        [.patched a name counts]
  | fail {a : α} {counts : Counts} {name : String} {todo : List String}
      (hpc : c.pc a = .sending counts (name :: todo)) :
      Does nodeName c (c.goto a (.sending counts todo)) []
  | finish {a : α} {counts : Counts} (hpc : c.pc a = .sending counts []) :
      Does nodeName c (c.goto a .idle) []
  | create {policy version : String} {doc : Doc} {server : Server Doc}
      (hw : c.server.write ⟨policy, version, withoutStatus doc⟩ = some server) :
      Does nodeName c { c with server := server } [.created policy doc]
  | edit {policy version : String} {doc : Doc} {u : Object Doc} {server : Server Doc}
      (hu : c.server.current.lookup policy = some u)
      (hw : c.server.write ⟨policy, version, withStatusOf u.content doc⟩ = some server) :
      Does nodeName c { c with server := server } [.edited policy doc]
  | report {policy version : String} {doc : Doc} {u : Object Doc} {server : Server Doc}
      (hu : c.server.current.lookup policy = some u)
      (hw : c.server.write ⟨policy, version, withStatusOf doc u.content⟩ = some server) :
      Does nodeName c { c with server := server } [.reported policy doc]
  | delete {policy : String} :
      Does nodeName c { c with server := c.server.remove policy } [.deleted policy]

theorem step_does (h : step nodeName c a = some (d, es)) : Does nodeName c d es := by
  cases a with
  | resolve a r => cases h; exact .resolve
  | tick a names =>
    simp only [step] at h
    split at h
    · next hpc =>
      split at h
      · split at h
        · cases h; exact .skip
        · cases h; exact .tick hpc
      · cases h
    · cases h
  | count a =>
    simp only [step] at h
    split at h
    · next hpc => cases h; exact .count hpc
    · next hpc => cases h; exact .build hpc
    · cases h
  | send a version =>
    simp only [step] at h
    split at h
    · next counts name todo hpc =>
      split at h
      · next version u hu =>
        obtain ⟨server, hw, heq⟩ := Option.map_eq_some_iff.mp h
        cases heq
        exact .patch hpc hu hw
      · cases h; exact .fail hpc
    · next hpc => cases h; exact .finish hpc
    · cases h
  | create policy version doc =>
    simp only [step] at h
    split at h
    · cases h
    · obtain ⟨server, hw, heq⟩ := Option.map_eq_some_iff.mp h
      cases heq
      exact .create hw
  | edit policy version doc =>
    obtain ⟨u, hu, h⟩ := Option.bind_eq_some_iff.mp h
    obtain ⟨server, hw, heq⟩ := Option.map_eq_some_iff.mp h
    cases heq
    exact .edit hu hw
  | report policy version doc =>
    obtain ⟨u, hu, h⟩ := Option.bind_eq_some_iff.mp h
    obtain ⟨server, hw, heq⟩ := Option.map_eq_some_iff.mp h
    cases heq
    exact .report hu hw
  | delete policy =>
    simp only [step] at h
    split at h
    · cases h; exact .delete
    · cases h

/-- A step writes what its event writes. -/
theorem value_step (h : Does nodeName c d es) (policy : String) {path : List String}
    (hne : path ≠ []) {patch : α → Counts → Option Doc → Option Doc}
    (hpatch : Merges nodeName path patch) :
    valueAt d.server policy path =
      es.foldl (write patch policy path) (valueAt c.server policy path) := by
  cases h with
  | resolve | skip | tick | count | build | fail | finish => rfl
  | @patch a counts name version todo u server hpc hu hw =>
    refine (valueAt_write hw policy path).trans ?_
    by_cases hp : name = policy
    · subst hp
      simp [valueAt, write, hu, hpatch a counts]
    · simp [write, hp]
  | @create name version doc server hw =>
    refine (valueAt_write hw policy path).trans ?_
    simp [write, get_withoutStatus doc hne]
  | @edit name version doc u server hu hw =>
    refine (valueAt_write hw policy path).trans ?_
    by_cases hp : name = policy
    · subst hp
      by_cases hs : path.head? = some "status"
      · simp [write, valueAt, hu, get_withStatusOf _ _ hne, hs]
      · simp [write, get_withStatusOf _ _ hne, hs]
    · simp [write, hp]
  | @report name version doc u server hu hw =>
    refine (valueAt_write hw policy path).trans ?_
    by_cases hp : name = policy
    · subst hp
      by_cases hs : path.head? = some "status"
      · simp [write, get_withStatusOf _ _ hne, hs]
      · simp [write, valueAt, hu, get_withStatusOf _ _ hne, hs]
    · simp [write, hp]
  | @delete name =>
    unfold valueAt
    rw [Server.lookup_remove]
    by_cases hp : name = policy
    · simp [write, hp]
    · simp [write, hp]

/-! ## What is reported -/

/-- The counts of a write-back are the answers the agent got since it began. -/
def Counted (tr : List (Event α)) (a : α) (counts : Counts) : Prop :=
  ∃ before during, tr = before ++ .began a :: during ∧ .began a ∉ during ∧
    ∀ name n, counts.lookup name = some n → .counted a name n ∈ during

omit [DecidableEq α] in
theorem Counted.append {tr : List (Event α)} {a : α} {counts : Counts} (h : Counted tr a counts)
    (hes : .began a ∉ es) : Counted (tr ++ es) a counts := by
  obtain ⟨before, during, rfl, hbegan, hcounts⟩ := h
  exact ⟨before, during ++ es, by simp, by simp [hbegan, hes],
    fun name n hn => List.mem_append_left _ (hcounts name n hn)⟩

/-- The counts an agent holds. -/
def Pc.counts : Pc → Option Counts
  | .idle => none
  | .counting _ _ counts => some counts
  | .sending counts _ => some counts

structure Reports (tr : List (Event α)) (c : Cluster α σ) : Prop where
  held : ∀ a counts, (c.pc a).counts = some counts → Counted tr a counts
  sent : ∀ pre a policy counts post, tr = pre ++ .patched a policy counts :: post →
    Counted pre a counts

omit [DecidableEq α] in
theorem Reports.sent_append {tr : List (Event α)} (h : Reports tr c) {e : Event α}
    (he : ∀ a policy counts, e = .patched a policy counts → Counted tr a counts)
    (pre : List (Event α)) (a : α) (policy : String) (counts : Counts) (post : List (Event α))
    (heq : tr ++ [e] = pre ++ .patched a policy counts :: post) : Counted pre a counts := by
  rcases List.eq_nil_or_concat post with rfl | ⟨post, x, rfl⟩
  · obtain ⟨rfl, hlast⟩ := List.append_inj' heq rfl
    exact he a policy counts (List.singleton_inj.mp hlast)
  · have hsplit : tr ++ [e] = (pre ++ .patched a policy counts :: post) ++ [x] := by
      rw [heq]
      simp
    obtain ⟨htr, -⟩ := List.append_inj' hsplit rfl
    exact h.sent pre a policy counts post htr

/-- An agent goes on with the counts that it has, or without any. -/
theorem Reports.goto {tr : List (Event α)} (h : Reports tr c) {a : α} {pc : Pc}
    (hpc : pc.counts = (c.pc a).counts ∨ pc.counts = none) : Reports tr (c.goto a pc) := by
  refine ⟨fun b counts hb => ?_, h.sent⟩
  by_cases hba : b = a
  · subst hba
    simp only [Cluster.goto, Function.update_self] at hb
    rcases hpc with hpc | hpc
    · exact h.held b counts (hpc ▸ hb)
    · rw [hpc] at hb
      cases hb
  · exact h.held b counts (by simpa [Cluster.goto, hba] using hb)

theorem Reports.step {tr : List (Event α)} (h : Reports tr c) (hd : Does nodeName c d es) :
    Reports (tr ++ es) d := by
  cases hd with
  | resolve | skip =>
    rw [List.append_nil]
    exact ⟨h.held, h.sent⟩
  | @tick a names hpc =>
    refine ⟨fun b counts hb => ?_, h.sent_append (by simp)⟩
    by_cases hba : b = a
    · subst hba
      obtain rfl : ∅ = counts := by simpa [Cluster.goto, Pc.counts] using hb
      exact ⟨tr, [], rfl, by simp, by simp⟩
    · refine (h.held b counts (by simpa [Cluster.goto, hba] using hb)).append ?_
      simpa using hba
  | @count a names todo name counts hpc =>
    refine ⟨fun b counts' hb => ?_, h.sent_append (by simp)⟩
    by_cases hba : b = a
    · subst hba
      obtain rfl : counts.insert name (activePodCount (c.resolver b) name) = counts' := by
        simpa [Cluster.goto, Pc.counts] using hb
      obtain ⟨before, during, rfl, hbegan, hcounts⟩ := h.held b counts (by rw [hpc]; rfl)
      refine ⟨before, during ++ [.counted b name (activePodCount (c.resolver b) name)], by simp,
        by simp [hbegan], fun q n hn => ?_⟩
      by_cases hq : q = name
      · subst hq
        rw [AList.lookup_insert] at hn
        simp [Option.some.inj hn]
      · rw [AList.lookup_insert_ne hq] at hn
        exact List.mem_append_left _ (hcounts q n hn)
    · exact (h.held b counts' (by simpa [Cluster.goto, hba] using hb)).append (by simp)
  | build hpc =>
    rw [List.append_nil]
    exact h.goto (.inl (by rw [hpc]; rfl))
  | @patch a counts name version todo u server hpc =>
    have hgoto : Reports tr (c.goto a (.sending counts todo)) := h.goto (.inl (by rw [hpc]; rfl))
    refine ⟨fun b counts' hb => (hgoto.held b counts' hb).append (by simp),
      h.sent_append fun b policy counts' heq => ?_⟩
    cases heq
    exact h.held a counts (by rw [hpc]; rfl)
  | fail hpc =>
    rw [List.append_nil]
    exact h.goto (.inl (by rw [hpc]; rfl))
  | finish hpc =>
    rw [List.append_nil]
    exact h.goto (.inr rfl)
  | create | edit | report | delete =>
    refine ⟨fun b counts hb => (h.held b counts hb).append (by simp), h.sent_append (by simp)⟩

end Step

/-! ## Runs -/

section Runs

variable {α σ : Type} [DecidableEq α] {nodeName : α → String} {c d : Cluster α σ}

/-- However the write-backs of the agents interleave with each other, with failed
requests and with the requests of other clients: a cell holds what was written into
it last, by an agent of its node or by a client; what is beside `nodeStatuses` no
agent changes; and every count that is written is one the agent read in the same
write-back. -/
theorem status_table {ok : Cluster α σ → Action α σ → Prop} (hidle : ∀ a, c.pc a = .idle)
    {tr : List (Event α)} (h : Run (step nodeName) ok c tr d) :
    (∀ policy node name, valueAt d.server policy (cell node name) =
      tr.foldl (write (tally nodeName node name) policy (cell node name))
        (valueAt c.server policy (cell node name))) ∧
    (∀ policy path, Beside path → valueAt d.server policy path =
      tr.foldl (write leave policy path) (valueAt c.server policy path)) ∧
    ∀ pre a policy counts post, tr = pre ++ .patched a policy counts :: post →
      ∃ before during, pre = before ++ .began a :: during ∧ .began a ∉ during ∧
        ∀ name n, counts.lookup name = some n → .counted a name n ∈ during := by
  have hinv := h.invariant (I := fun tr d => (∀ policy path patch, path ≠ [] →
    Merges nodeName path patch → valueAt d.server policy path =
      tr.foldl (write patch policy path) (valueAt c.server policy path)) ∧ Reports tr d) ?_ ?_
  · obtain ⟨hvalue, hrep⟩ := hinv
    refine ⟨fun policy node name => ?_, fun policy path hpath => ?_, hrep.sent⟩
    · exact hvalue policy _ _ (by simp [cell]) (merges_cell nodeName node name)
    · exact hvalue policy path leave (by cases hpath <;> simp) (merges_beside nodeName hpath)
  · exact ⟨fun _ _ _ _ _ => rfl, fun a counts ha => by simp [hidle, Pc.counts] at ha, by simp⟩
  · intro tr e a d es hI _ hs
    obtain ⟨hvalue, hrep⟩ := hI
    have hd := step_does hs
    refine ⟨fun policy path patch hne hpatch => ?_, hrep.step hd⟩
    rw [List.foldl_append, ← hvalue policy path patch hne hpatch, value_step hd policy hne hpatch]

/-! ### A write-back on its own -/

theorem exec_count (nodeName : α → String) (a : α) (names todo : List String) (counts : Counts)
    (c : Cluster α σ) : ∃ es, exec (step nodeName) (c.goto a (.counting names todo counts))
      (todo.map fun _ => .count a) =
        some (c.goto a (.counting names [] (todo.foldl (fun counts name =>
          counts.insert name (activePodCount (c.resolver a) name)) counts)), es) := by
  induction todo generalizing counts with
  | nil => exact ⟨[], rfl⟩
  | cons name todo ih =>
    obtain ⟨es, hes⟩ := ih (counts.insert name (activePodCount (c.resolver a) name))
    refine ⟨[.counted a name (activePodCount (c.resolver a) name)] ++ es, exec_cons_of_eq ?_ hes⟩
    simp [step, Cluster.goto]

/-- The contents of the policies on the server. -/
def Shows (server : Server Doc) (api : Finmap fun _ : String => Doc) : Prop :=
  ∀ name, (server.current.lookup name).map Object.content = api.lookup name

/-- The server answers each patch that does not fail with a version of its own. -/
structure Answers (server : Server Doc) (names failing : List String)
    (answer : String → Option String) : Prop where
  failing : ∀ name, answer name = none ↔ name ∈ failing
  fresh : ∀ name ∈ names, ∀ version, answer name = some version →
    version ∉ server.history.map Object.resourceVersion
  distinct : ∀ name name' version, answer name = some version → answer name' = some version →
    name = name'

section Alone

variable {a : α} {counts : Counts} {name : String} {todo failing : List String}
  {answer : String → Option String} {api : Finmap fun _ : String => Doc}

variable (nodeName a counts) in
/-- One patch of a write-back is `patchPolicy`. -/
theorem step_send (hshows : Shows c.server api)
    (hans : Answers c.server (name :: todo) failing answer) (hname : name ∉ todo) :
    ∃ server es, step nodeName (c.goto a (.sending counts (name :: todo))) (.send a (answer name)) =
        some ({ c with server := server }.goto a (.sending counts todo), es) ∧
      Shows server (patchPolicy (buildStatusPatch (nodeName a) (some counts)) failing api name) ∧
      Answers server todo failing answer := by
  have hrest : Answers c.server todo failing answer :=
    ⟨hans.failing, fun n hn => hans.fresh n (List.mem_cons_of_mem _ hn), hans.distinct⟩
  have hlookup := hshows name
  cases hver : answer name with
  | none =>
    have hfail : name ∈ failing := (hans.failing name).mp hver
    refine ⟨c.server, [], by simp [step, Cluster.goto], ?_, hrest⟩
    rw [show patchPolicy _ failing api name = api by
      unfold patchPolicy; split <;> simp [hfail]]
    exact hshows
  | some version =>
    have hfail : name ∉ failing := fun h => by simp [(hans.failing name).mpr h] at hver
    cases hu : c.server.current.lookup name with
    | none =>
      rw [hu] at hlookup
      refine ⟨c.server, [], by simp [step, Cluster.goto, hu], ?_, hrest⟩
      rw [show patchPolicy _ failing api name = api by
        unfold patchPolicy; rw [← hlookup]; rfl]
      exact hshows
    | some u =>
      rw [hu] at hlookup
      obtain ⟨server, hw⟩ := Server.exists_write (s := c.server) (u := ⟨name, version,
        mergePatch u.content (buildStatusPatch (nodeName a) (some counts))⟩)
        (hans.fresh name List.mem_cons_self version hver)
      refine ⟨server, [.patched a name counts], by simp [step, Cluster.goto, hu, hw],
        fun n => ?_, hans.failing, fun n hn v hv hmem => ?_, hans.distinct⟩
      · rw [Server.lookup_write hw]
        by_cases hn : name = n
        · subst hn
          rw [if_pos rfl, lookup_patchPolicy, ← hlookup]
          simp [hfail]
        · rw [if_neg hn, lookup_patchPolicy_ne _ _ _ _ _ (Ne.symm hn)]
          exact hshows n
      · -- the version just used is that of `name`
        rw [(Server.write_eq_some hw).2, List.map_cons, List.mem_cons] at hmem
        rcases hmem with rfl | hmem
        · exact hname (hans.distinct n name _ hv hver ▸ hn)
        · exact hans.fresh n (List.mem_cons_of_mem _ hn) v hv hmem

variable (nodeName a counts) in
theorem exec_send (hnodup : todo.Nodup) (hshows : Shows c.server api)
    (hans : Answers c.server todo failing answer) :
    ∃ server es, exec (step nodeName) (c.goto a (.sending counts todo))
        (todo.map fun name => .send a (answer name)) =
          some ({ c with server := server }.goto a (.sending counts []), es) ∧
      Shows server (todo.foldl
        (patchPolicy (buildStatusPatch (nodeName a) (some counts)) failing) api) := by
  induction todo generalizing c api with
  | nil => exact ⟨c.server, [], rfl, hshows⟩
  | cons name todo ih =>
    obtain ⟨hname, hnodup⟩ := List.nodup_cons.mp hnodup
    obtain ⟨server₁, es₁, hstep, hshows₁, hans₁⟩ := step_send nodeName a counts hshows
      hans hname
    obtain ⟨server, es, hexec, hshows⟩ :=
      ih (c := { c with server := server₁ }) hnodup hshows₁ hans₁
    exact ⟨server, es₁ ++ es, exec_cons_of_eq hstep hexec, hshows⟩

/-- The actions of one write-back. -/
def alone (a : α) (names : List String) (answer : String → Option String) : List (Action α σ) :=
  .tick a names :: ((names.map fun _ => .count a) ++ .count a ::
    ((names.map fun name => .send a (answer name)) ++ [.send a none]))

/-- A write-back that nothing interrupts is `writebackPolicyStatus`. -/
theorem exec_alone {names : List String} (hpc : c.pc a = .idle) (hne : names ≠ [])
    (hnames : names.Nodup ∧ names.toFinset = (c.resolver a).policies.keys)
    (hshows : Shows c.server api) (hans : Answers c.server names failing answer) :
    ∃ server es, exec (step nodeName) c (alone a names answer) =
        some ({ c with server := server }, es) ∧
      Shows server (writebackPolicyStatus (c.resolver a) (nodeName a) names failing api) := by
  obtain ⟨es₁, hcount⟩ := exec_count nodeName a names names ∅ c
  obtain ⟨server, es₂, hsend, hshows⟩ := exec_send nodeName a
    (policyCounts (c.resolver a) names) hnames.1 hshows hans
  have htick : step nodeName c (.tick a names) =
      some (c.goto a (.counting names names ∅), [.began a]) := by
    simp [step, hpc, hnames, hne]
  have hbuild : step nodeName (c.goto a (.counting names [] (policyCounts (c.resolver a) names)))
      (.count a) = some (c.goto a (.sending (policyCounts (c.resolver a) names) names), []) := by
    simp [step, Cluster.goto]
  have hend : step nodeName ({ c with server := server }.goto a
      (.sending (policyCounts (c.resolver a) names) [])) (.send a none) =
        some ({ c with server := server }, []) := by
    have hidle : Function.update c.pc a .idle = c.pc := by rw [← hpc, Function.update_eq_self]
    simp [step, Cluster.goto, hidle]
  have hwrite : writebackPolicyStatus (c.resolver a) (nodeName a) names failing api = _ :=
    if_neg hne
  rw [hwrite]
  exact ⟨server, _, exec_cons_of_eq htick (exec_append_of_eq hcount (exec_cons_of_eq hbuild
    (exec_append_of_eq hsend (exec_cons_of_eq hend rfl)))), hshows⟩

end Alone

end Runs

/-! ## A run -/

def latency : SchedulingPolicy Unit := { name := "latency", podSelector := none }

/-- A resolver with one policy, which the given pods match. -/
def matching (pods : Finset String) : Resolver Unit :=
  { addPolicy newResolver latency with matchedPods := .singleton "latency" pods }

def conditions : Doc := .obj [("conditions", .arr [])]

/-- Two agents report on the same policy at the same time, another pod comes to
match after one of them has counted, and a client sets the conditions. -/
def overlapping : List (Action Bool Unit) :=
  [.create "latency" "1" (.obj []), .tick true ["latency"], .count true,
    .resolve true (matching {"u1", "u2"}), .report "latency" "2" (.obj [("status", conditions)]),
    .tick false ["latency"], .count false, .count true, .count false, .send true (some "3"),
    .send false (some "4")]

def bothAgents : Cluster Bool Unit :=
  ⟨Server.empty, fun a => if a then matching {"u1"} else matching {"u2", "u3"}, fun _ => .idle⟩

theorem status_table_overlapping :
    ∃ (tr : List (Event Bool)) (d : Cluster Bool Unit),
      Run (step fun a => if a then "node-1" else "node-2") (fun _ _ => True) bothAgents tr d ∧
        valueAt d.server "latency" (cell "node-1" "latency") = some (StatusPatch.count 1) ∧
        valueAt d.server "latency" (cell "node-2" "latency") = some (StatusPatch.count 2) ∧
        valueAt d.server "latency" ["status", "conditions"] = some (.arr []) := by
  have h : Run (step fun a => if a then "node-1" else "node-2") (fun _ _ => True) bothAgents _ _ :=
    Run.of_isSome overlapping (allSteps_of_forall _ fun _ _ _ => trivial) (by decide)
  obtain ⟨hcell, hbeside, -⟩ := status_table (fun _ => rfl) h
  exact ⟨_, _, h, (hcell _ _ _).trans rfl, (hcell _ _ _).trans rfl,
    (hbeside _ _ (.status (by decide))).trans rfl⟩

end K8sSched.Agent.ClusterStatus
