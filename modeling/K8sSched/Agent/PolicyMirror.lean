import K8sSched.Agent.ApiServer
import K8sSched.Agent.Polling
import K8sSched.Lib.Changefeed
import K8sSched.Lib.Runs

/-! # The cached policies and the API server

The handlers `Resolver.Start` registers with the dynamic informer, and the way
an object of the API server takes to them: watch events, the deltas of the
informer, its store, the notifications. A watch can break off, and what was under
way is lost; the informer then lists the objects, and reports one that is gone
by a tombstone with the last state it knew. Every five minutes it reports all it
has again. An object that cannot be converted is passed over by the handlers, a
deleted one too. -/

namespace K8sSched.Agent.PolicyMirror
open K8sSched.Agent.ApiServer K8sSched.Agent.Policies K8sSched.Agent.Polling
open K8sSched.Lib.Changefeed K8sSched.Lib.GoMap K8sSched.Lib.Runs

variable {ρ σ : Type}

/-- `DefaultUnstructuredConverter`, which can fail. -/
structure Converter (ρ σ : Type) where
  fromUnstructured : Object ρ → Option (SchedulingPolicy σ)
  name : ∀ u p, fromUnstructured u = some p → p.name = u.name
  version : ∀ u p, fromUnstructured u = some p → p.resourceVersion = u.resourceVersion

/-! ## The handlers -/

/-- What a handler is called with: an unstructured object, the tombstone of one,
or something else. -/
inductive Handed (ρ : Type)
  | unstructured (u : Object ρ)
  | deletedFinalStateUnknown (obj : Option (Object ρ))
  | other

def unstructuredToPolicy (c : Converter ρ σ) : Handed ρ → Option (SchedulingPolicy σ)
  | .unstructured u => c.fromUnstructured u
  | .deletedFinalStateUnknown (some u) => c.fromUnstructured u
  | .deletedFinalStateUnknown none => none
  | .other => none

inductive Notification (ρ : Type)
  | add (obj : Handed ρ)
  | update (newObj : Handed ρ)
  | delete (obj : Handed ρ)

/-- `AddFunc`, `UpdateFunc` and `DeleteFunc`. -/
def notify (c : Converter ρ σ) (r : Resolver σ) : Notification ρ → Resolver σ
  | .add obj =>
    match unstructuredToPolicy c obj with
    | none => r
    | some policy => addPolicy r policy
  | .update newObj =>
    match unstructuredToPolicy c newObj with
    | none => r
    | some policy => addPolicy r policy
  | .delete obj =>
    match unstructuredToPolicy c obj with
    | none => r
    | some policy => removePolicy r policy.name

/-! ## The informer -/

/-- An entry of the informer's queue. -/
inductive Delta (ρ : Type)
  | upsert (u : Object ρ)
  | deleted (u : Object ρ)
  | unknown (u : Object ρ)

def Delta.object : Delta ρ → Object ρ
  | .upsert u => u
  | .deleted u => u
  | .unknown u => u

def Delta.change : Delta ρ → Change String (Object ρ)
  | .upsert u => .put u.name u
  | .deleted u => .drop u.name u
  | .unknown u => .drop u.name u

abbrev Store (ρ : Type) := Finmap fun _ : String => Object ρ

def takes (store : Store ρ) (d : Delta ρ) : Store ρ := apply store d.change

theorem foldl_takes (ds : List (Delta ρ)) (store : Store ρ) :
    ds.foldl takes store = (ds.map Delta.change).foldl apply store := by
  rw [List.foldl_map]
  rfl

/-- The call that follows a delta, given the store before it. -/
def Delta.notification (store : Store ρ) : Delta ρ → Notification ρ
  | .upsert u => if u.name ∈ store then .update (.unstructured u) else .add (.unstructured u)
  | .deleted u => .delete (.unstructured u)
  | .unknown u => .delete (.deletedFinalStateUnknown (some u))

/-- How a listing is put into the queue. -/
def replaced : Change String (Object ρ) → Delta ρ
  | .put _ u => .upsert u
  | .drop _ u => .unknown u

structure Feed (ρ σ : Type) where
  server : Server ρ
  watching : Bool
  underWay : List (Delta ρ)
  deltas : List (Delta ρ)
  store : Store ρ
  pending : List (Notification ρ)
  resolver : Resolver σ

/-- What the store will hold once the queue is empty. -/
def Feed.view (s : Feed ρ σ) : Store ρ := s.deltas.foldl takes s.store

inductive Action (ρ : Type)
  | write (u : Object ρ)
  | remove (name : String)
  | receive
  | relist (names : List String)
  | resync (names : List String)
  | pop
  | notify

/-- The listing covers what the server has and what the informer knows, the
names in some order. A resync leaves out the names with a delta in the queue. -/
def step (c : Converter ρ σ) (s : Feed ρ σ) :
    Action ρ → Option (Feed ρ σ × List (Notification ρ))
  | .write u =>
    (s.server.write u).map fun server =>
      ({ s with server := server, underWay := s.underWay ++ [.upsert u] }, [])
  | .remove name =>
    (s.server.current.lookup name).map fun u =>
      ({ s with server := s.server.remove name, underWay := s.underWay ++ [.deleted u] }, [])
  | .receive =>
    match s.watching, s.underWay with
    | true, d :: rest => some ({ s with underWay := rest, deltas := s.deltas ++ [d] }, [])
    | _, _ => none
  | .relist names =>
    if s.server.current.keys ∪ s.view.keys ⊆ names.toFinset then
      some
        ({ s with
          watching := true
          underWay := []
          deltas := s.deltas ++ (diff s.server.current s.view names).map replaced }, [])
    else none
  | .resync names =>
    let idle := names.filter fun name => name ∉ s.deltas.map fun d => d.object.name
    some ({ s with
      deltas := s.deltas ++ (idle.filterMap fun name => s.store.lookup name).map .upsert }, [])
  | .pop =>
    match s.deltas with
    | [] => none
    | d :: rest =>
      some
        ({ s with
          deltas := rest
          store := takes s.store d
          pending := s.pending ++ [d.notification s.store] }, [])
  | .notify =>
    match s.pending with
    | [] => none
    | n :: rest => some ({ s with pending := rest, resolver := notify c s.resolver n }, [n])

/-! ## One delta -/

/-- What a delta does to the resolver in the end. -/
def reaches (c : Converter ρ σ) (r : Resolver σ) (d : Delta ρ) : Resolver σ :=
  notify c r (d.notification ∅)

theorem notify_notification (c : Converter ρ σ) (r : Resolver σ) (store : Store ρ) (d : Delta ρ) :
    notify c r (d.notification store) = reaches c r d := by
  cases d with
  | upsert u =>
    simp only [reaches, Delta.notification, Finmap.notMem_empty, if_false]
    split
    · rfl
    · rfl
  | deleted u | unknown u => rfl

section Reads

variable {c : Converter ρ σ} {u : Object ρ} {p : SchedulingPolicy σ}

theorem reaches_of_none (r : Resolver σ) {d : Delta ρ}
    (h : c.fromUnstructured d.object = none) : reaches c r d = r := by
  cases d with
  | upsert u =>
    have h' : c.fromUnstructured u = none := h
    simp [reaches, Delta.notification, notify, unstructuredToPolicy, h', Finmap.notMem_empty]
  | deleted u | unknown u =>
    have h' : c.fromUnstructured u = none := h
    simp [reaches, Delta.notification, notify, unstructuredToPolicy, h']

theorem reaches_upsert (r : Resolver σ) (h : c.fromUnstructured u = some p) :
    reaches c r (.upsert u) = addPolicy r p := by
  simp [reaches, Delta.notification, notify, unstructuredToPolicy, h, Finmap.notMem_empty]

theorem reaches_drop (r : Resolver σ) {d : Delta ρ} (hd : d.change.value? = none)
    (h : c.fromUnstructured d.object = some p) : reaches c r d = removePolicy r p.name := by
  cases d with
  | upsert u => cases hd
  | deleted u | unknown u =>
    have h' : c.fromUnstructured u = some p := h
    simp [reaches, Delta.notification, notify, unstructuredToPolicy, h']

/-- A delta leaves the cached policies of other names alone. -/
theorem lookup_reaches_of_ne (r : Resolver σ) {d : Delta ρ} {name : String}
    (hn : name ≠ d.object.name) :
    (reaches c r d).policies.lookup name = r.policies.lookup name := by
  cases hconv : c.fromUnstructured d.object with
  | none => rw [reaches_of_none r hconv]
  | some p =>
    have hp : name ≠ p.name := by rw [c.name _ _ hconv]; exact hn
    cases d with
    | upsert u =>
      rw [reaches_upsert (u := u) r hconv]
      exact congrArg Prod.fst (read_addPolicy_ne r p name hp)
    | deleted u | unknown u =>
      rw [reaches_drop r rfl hconv]
      exact Finmap.lookup_erase_ne hp

theorem lookup_reaches_upsert (r : Resolver σ) (h : c.fromUnstructured u = some p) :
    (reaches c r (.upsert u)).policies.lookup u.name = added p (r.policies.lookup u.name) := by
  rw [reaches_upsert r h, ← c.name u p h]
  exact congrArg Prod.fst (read_addPolicy r p)

end Reads

/-- Under one name, the cached policy goes with the object that is held, both
from the history: an object that converts is cached, and without an object
nothing is, as long as all objects of the name convert. -/
structure MirrorsAt (c : Converter ρ σ) (history : List (Object ρ)) (name : String)
    (held : Option (Object ρ)) (cached : Option (SchedulingPolicy σ)) : Prop where
  seen : ∀ u, held = some u → u ∈ history ∧ u.name = name
  known : ∀ p, cached = some p → ∃ u ∈ history, c.fromUnstructured u = some p
  present : ∀ u p, held = some u → c.fromUnstructured u = some p → cached = some p
  absent : (∀ u ∈ history, u.name = name → (c.fromUnstructured u).isSome) →
    held = none → cached = none

def Mirrors (c : Converter ρ σ) (history : List (Object ρ)) (view : Store ρ) (r : Resolver σ) :
    Prop :=
  ∀ name, MirrorsAt c history name (view.lookup name) (r.policies.lookup name)

section Mirrors

variable {c : Converter ρ σ} {history : List (Object ρ)} {view : Store ρ} {r : Resolver σ}

theorem Mirrors.write (h : Mirrors c history view r) (u : Object ρ) :
    Mirrors c (u :: history) view r := by
  intro name
  obtain ⟨hseen, hknown, hpresent, habsent⟩ := h name
  refine ⟨fun v hv => (hseen v hv).imp_left (List.mem_cons_of_mem _), fun p hp => ?_, hpresent,
    fun hall => habsent fun v hv => hall v (List.mem_cons_of_mem _ hv)⟩
  obtain ⟨v, hv, hconv⟩ := hknown p hp
  exact ⟨v, List.mem_cons_of_mem _ hv, hconv⟩

/-- A cached policy of the same version as an object is its conversion. -/
theorem Mirrors.added_eq (h : Mirrors c history view r)
    (hversions : (history.map Object.resourceVersion).Nodup) {u : Object ρ} (hu : u ∈ history)
    {p : SchedulingPolicy σ} (hconv : c.fromUnstructured u = some p) :
    added p (r.policies.lookup u.name) = some p := by
  unfold added
  split
  · next hsame =>
    obtain ⟨old, hold, heq⟩ := (Option.any_eq_true _ _).mp hsame
    obtain ⟨v, hv, hvconv⟩ := (h u.name).known old hold
    have hver : v.resourceVersion = u.resourceVersion := by
      rw [← c.version v old hvconv, ← c.version u p hconv]
      exact eq_of_beq heq
    rw [List.inj_on_of_nodup_map hversions hv hu hver, hconv] at hvconv
    rw [hold, hvconv]
  · rfl

/-- A delta whose object does not convert changes only what is held. -/
theorem MirrorsAt.passed {name : String} {held held' : Option (Object ρ)}
    {cached : Option (SchedulingPolicy σ)} (h : MirrorsAt c history name held cached)
    {u : Object ρ} (hu : u ∈ history) (hname : u.name = name)
    (hconv : c.fromUnstructured u = none) (hheld : ∀ v, held' = some v → v = u) :
    MirrorsAt c history name held' cached where
  seen := by
    intro v hv
    rw [hheld v hv]
    exact ⟨hu, hname⟩
  known := h.known
  present := by
    intro v p hv hp
    rw [hheld v hv, hconv] at hp
    cases hp
  absent := by
    intro hall
    have hsome := hall u hu hname
    rw [hconv] at hsome
    cases hsome

theorem MirrorsAt.held {u : Object ρ} {name : String} {p : SchedulingPolicy σ} (hu : u ∈ history)
    (hname : u.name = name) (hconv : c.fromUnstructured u = some p) :
    MirrorsAt c history name (some u) (some p) where
  seen := by
    intro v hv
    cases hv
    exact ⟨hu, hname⟩
  known := fun q hq => ⟨u, hu, hconv.trans hq⟩
  present := by
    intro v q hv hq
    cases hv
    exact hconv.symm.trans hq
  absent := fun _ hnone => absurd hnone (by simp)

theorem MirrorsAt.gone {name : String} : MirrorsAt c history name none none :=
  ⟨by simp, by simp, by simp, fun _ _ => rfl⟩

theorem Mirrors.delta (h : Mirrors c history view r)
    (hversions : (history.map Object.resourceVersion).Nodup) {d : Delta ρ}
    (hd : d.object ∈ history) : Mirrors c history (takes view d) (reaches c r d) := by
  intro name
  have hkey : d.change.key = d.object.name := by cases d <;> rfl
  by_cases hn : name = d.object.name
  · have hheld : (takes view d).lookup name = d.change.value? := by
      rw [hn, ← hkey]
      exact lookup_apply_self view d.change
    rw [hheld]
    cases hconv : c.fromUnstructured d.object with
    | none =>
      rw [reaches_of_none r hconv]
      refine (h name).passed hd hn.symm hconv fun v hv => ?_
      cases d with
      | upsert u => exact (Option.some.inj hv).symm
      | deleted u | unknown u => cases hv
    | some p =>
      cases d with
      | upsert u =>
        have hread : (reaches c r (.upsert u)).policies.lookup u.name = some p :=
          (lookup_reaches_upsert r hconv).trans (h.added_eq hversions hd hconv)
        subst hn
        show MirrorsAt c history u.name (some u) ((reaches c r (.upsert u)).policies.lookup u.name)
        rw [hread]
        exact .held hd rfl hconv
      | deleted u | unknown u =>
        have hread : (removePolicy r p.name).policies.lookup p.name = none :=
          Finmap.lookup_erase _ _
        rw [reaches_drop r rfl hconv, hn, ← c.name _ p hconv, hread]
        exact .gone
  · rw [takes, lookup_apply_of_ne view (by rw [hkey]; exact hn), lookup_reaches_of_ne r hn]
    exact h name

theorem Mirrors.deltas (h : Mirrors c history view r)
    (hversions : (history.map Object.resourceVersion).Nodup) {ds : List (Delta ρ)}
    (hds : ∀ d ∈ ds, d.object ∈ history) :
    Mirrors c history (ds.foldl takes view) (ds.foldl (reaches c) r) := by
  induction ds generalizing view r with
  | nil => exact h
  | cons d ds ih =>
    exact ih (h.delta hversions (hds d List.mem_cons_self))
      fun d' hd' => hds d' (List.mem_cons_of_mem _ hd')

end Mirrors

/-! ## Steps -/

/-- The resolver once the queues are empty. -/
def Feed.settled (c : Converter ρ σ) (s : Feed ρ σ) : Resolver σ :=
  s.deltas.foldl (reaches c) (s.pending.foldl (notify c) s.resolver)

structure Inv (c : Converter ρ σ) (s : Feed ρ σ) : Prop where
  mirrors : Mirrors c s.server.history s.view (s.settled c)
  recorded : ∀ d ∈ s.underWay, d.object ∈ s.server.history
  follows : s.watching = true → s.underWay.foldl takes s.view = s.server.current

section Steps

variable {c : Converter ρ σ} {s t : Feed ρ σ}

/-- Deltas of recorded objects come into the queue. -/
theorem Inv.queue (h : Inv c s) {ds rest : List (Delta ρ)} {watching : Bool}
    (hds : ∀ d ∈ ds, d.object ∈ s.server.history)
    (hrest : ∀ d ∈ rest, d.object ∈ s.server.history)
    (hfollows : watching = true →
      rest.foldl takes (ds.foldl takes s.view) = s.server.current) :
    Inv c { s with watching := watching, underWay := rest, deltas := s.deltas ++ ds } where
  mirrors := by
    have hm := h.mirrors.deltas s.server.versions hds
    simpa only [Feed.view, Feed.settled, List.foldl_append] using hm
  recorded := hrest
  follows := by simpa only [Feed.view, List.foldl_append] using hfollows

theorem Inv.write (h : Inv c s) {u : Object ρ} {server : Server ρ}
    (hw : s.server.write u = some server) :
    Inv c { s with server := server, underWay := s.underWay ++ [.upsert u] } := by
  obtain ⟨hcurrent, hhistory⟩ := Server.write_eq_some hw
  refine ⟨?_, fun d hd => ?_, fun hwatch => ?_⟩
  · show Mirrors c server.history s.view (s.settled c)
    rw [hhistory]
    exact h.mirrors.write u
  · show d.object ∈ server.history
    rw [hhistory]
    rcases List.mem_append.mp hd with hd | hd
    · exact List.mem_cons_of_mem _ (h.recorded d hd)
    · rw [List.mem_singleton.mp hd]
      exact List.mem_cons_self
  · show (s.underWay ++ [Delta.upsert u]).foldl takes s.view = server.current
    rw [List.foldl_append, h.follows hwatch, hcurrent]
    rfl

theorem Inv.remove (h : Inv c s) {name : String} {u : Object ρ}
    (hu : s.server.current.lookup name = some u) :
    Inv c { s with server := s.server.remove name, underWay := s.underWay ++ [.deleted u] } := by
  obtain ⟨hrec, hname⟩ := s.server.recorded name u hu
  refine ⟨h.mirrors, fun d hd => ?_, fun hwatch => ?_⟩
  · rcases List.mem_append.mp hd with hd | hd
    · exact h.recorded d hd
    · rw [List.mem_singleton.mp hd]
      exact hrec
  · show (s.underWay ++ [Delta.deleted u]).foldl takes s.view = s.server.current.erase name
    rw [List.foldl_append, h.follows hwatch, ← hname]
    rfl

/-- After a listing the view is what the server has. -/
theorem foldl_relisted (h : Inv c s) {names : List String}
    (hnames : s.server.current.keys ∪ s.view.keys ⊆ names.toFinset) :
    (∀ d ∈ (diff s.server.current s.view names).map replaced, d.object ∈ s.server.history) ∧
      ((diff s.server.current s.view names).map replaced).foldl takes s.view =
        s.server.current := by
  -- the objects are listed under their names
  have hwell : ∀ ch ∈ diff s.server.current s.view names,
      (replaced ch).object ∈ s.server.history ∧ (replaced ch).change = ch := by
    intro ch hch
    obtain ⟨name, -, hat⟩ := List.mem_filterMap.mp hch
    unfold changeAt at hat
    split at hat
    · next u hu =>
      cases hat
      obtain ⟨hrec, hname⟩ := s.server.recorded name u hu
      exact ⟨hrec, congrArg (Change.put · u) hname⟩
    · next u _ hu =>
      cases hat
      obtain ⟨hrec, hname⟩ := (h.mirrors name).seen u hu
      exact ⟨hrec, congrArg (Change.drop · u) hname⟩
    · cases hat
  constructor
  · intro d hd
    obtain ⟨ch, hch, rfl⟩ := List.mem_map.mp hd
    exact (hwell ch hch).1
  · have hsame : (diff s.server.current s.view names).map (Delta.change ∘ replaced) =
        diff s.server.current s.view names :=
      (List.map_congr_left fun ch hch => (hwell ch hch).2).trans (List.map_id _)
    rw [foldl_takes, List.map_map, hsame]
    exact foldl_diff hnames

/-- A resync reports what the view has. -/
theorem foldl_resynced (h : Inv c s) (names : List String) :
    let ds := ((names.filter fun name => name ∉ s.deltas.map fun d => d.object.name).filterMap
      fun name => s.store.lookup name).map Delta.upsert
    (∀ d ∈ ds, d.object ∈ s.server.history) ∧ ds.foldl takes s.view = s.view := by
  intro ds
  have hview : ∀ d ∈ ds, s.view.lookup d.object.name = some d.object ∧
      d.object ∈ s.server.history ∧ d.change = .put d.object.name d.object := by
    intro d hd
    obtain ⟨u, hu, rfl⟩ := List.mem_map.mp hd
    obtain ⟨name, hname, hlookup⟩ := List.mem_filterMap.mp hu
    obtain ⟨-, hidle⟩ := List.mem_filter.mp hname
    have hread : s.view.lookup name = some u := by
      rw [← hlookup]
      refine read_foldl_of_not_mem (fun d : Delta ρ => d.object.name)
        (fun (m : Store ρ) k => m.lookup k) ?_ (of_decide_eq_true hidle) s.store
      intro m d k hk
      refine lookup_apply_of_ne m ?_
      cases d <;> exact hk
    obtain ⟨hrec, hn⟩ := (h.mirrors name).seen u hread
    exact ⟨by rw [Delta.object, hn]; exact hread, hrec, rfl⟩
  refine ⟨fun d hd => (hview d hd).2.1, ?_⟩
  rw [foldl_takes]
  refine foldl_eq_of_agree (fun ch hch => ?_) fun _ _ => rfl
  obtain ⟨d, hd, rfl⟩ := List.mem_map.mp hch
  obtain ⟨hlookup, -, hchange⟩ := hview d hd
  rw [hchange]
  exact hlookup.symm

theorem Inv.step (h : Inv c s) {a : Action ρ} {es : List (Notification ρ)}
    (hs : PolicyMirror.step c s a = some (t, es)) : Inv c t := by
  cases a with
  | write u =>
    obtain ⟨server, hw, heq⟩ := Option.map_eq_some_iff.mp hs
    cases heq
    exact h.write hw
  | remove name =>
    obtain ⟨u, hu, heq⟩ := Option.map_eq_some_iff.mp hs
    cases heq
    exact h.remove hu
  | receive =>
    simp only [PolicyMirror.step] at hs
    split at hs
    · next d rest hwatch hway =>
      cases hs
      have hrec := h.recorded
      have hfollows := h.follows hwatch
      rw [hway] at hrec hfollows
      exact h.queue (by simpa using hrec d List.mem_cons_self)
        (fun d' hd' => hrec d' (List.mem_cons_of_mem _ hd')) fun _ => hfollows
    · cases hs
  | relist names =>
    simp only [PolicyMirror.step] at hs
    split at hs
    · next hnames =>
      cases hs
      obtain ⟨hrec, hfold⟩ := foldl_relisted h hnames
      exact h.queue hrec (by simp) fun _ => hfold
    · cases hs
  | resync names =>
    cases hs
    obtain ⟨hrec, hfold⟩ := foldl_resynced h names
    exact h.queue hrec h.recorded fun hwatch => by rw [hfold]; exact h.follows hwatch
  | pop =>
    simp only [PolicyMirror.step] at hs
    split at hs
    · cases hs
    · next d rest hdeltas =>
      cases hs
      obtain ⟨hmirrors, hrec, hfollows⟩ := h
      simp only [Feed.view, Feed.settled, hdeltas, List.foldl_cons] at hmirrors hfollows
      refine ⟨?_, hrec, hfollows⟩
      simpa only [Feed.view, Feed.settled, List.foldl_append, List.foldl_cons, List.foldl_nil,
        notify_notification] using hmirrors
  | notify =>
    simp only [PolicyMirror.step] at hs
    split at hs
    · cases hs
    · next n rest hpending =>
      cases hs
      obtain ⟨hmirrors, hrec, hfollows⟩ := h
      simp only [Feed.settled, hpending, List.foldl_cons] at hmirrors
      exact ⟨hmirrors, hrec, hfollows⟩

end Steps

/-! ## Runs -/

/-- Before the first listing. -/
def started (server : Server ρ) : Feed ρ σ :=
  ⟨server, false, [], [], ∅, [], newResolver⟩

theorem started_inv (c : Converter ρ σ) (server : Server ρ) : Inv c (started server) where
  mirrors := fun _ => .gone
  recorded := by simp [started]
  follows := by simp [started]

/-- Whatever was lost on the way: once the informer watches and its queues are
empty, a policy whose object converts is cached as the server has it, and one
that was deleted is not cached, if all its versions convert. -/
theorem policies_mirrored {c : Converter ρ σ} {server : Server ρ} {s : Feed ρ σ}
    {tr : List (Notification ρ)}
    (h : Run (step c) (fun _ _ => True) (started server) tr s) (hwatch : s.watching = true)
    (hway : s.underWay = []) (hdeltas : s.deltas = []) (hpending : s.pending = [])
    (name : String) :
    (∀ u p, s.server.current.lookup name = some u → c.fromUnstructured u = some p →
      s.resolver.policies.lookup name = some p) ∧
    (s.server.current.lookup name = none →
      (∀ u ∈ s.server.history, u.name = name → (c.fromUnstructured u).isSome) →
      s.resolver.policies.lookup name = none) := by
  have hinv : Inv c s := h.invariant (I := fun _ s => Inv c s) (started_inv c server)
    fun _ _ _ _ _ ih _ hs => ih.step hs
  have hsettled : s.settled c = s.resolver := by simp [Feed.settled, hdeltas, hpending]
  have hview : s.view = s.server.current := by simpa [hway] using hinv.follows hwatch
  have hm := hinv.mirrors name
  rw [hsettled, hview] at hm
  exact ⟨hm.present, fun hnone hall => hm.absent hall hnone⟩

/-- Content that converts, or does not. -/
def flagged : Converter Bool Unit where
  fromUnstructured u :=
    if u.content then some { name := u.name, resourceVersion := u.resourceVersion } else none
  name := by
    intro u p h
    split at h
    · cases h
      rfl
    · cases h
  version := by
    intro u p h
    split at h
    · cases h
      rfl
    · cases h

/-- The watch breaks off when one policy has been written and another deleted. -/
def brokenOff : List (Action Bool) :=
  [.write ⟨"batch", "1", true⟩, .relist ["batch"], .pop, .notify, .write ⟨"web", "2", true⟩,
    .remove "batch", .relist ["web", "batch"], .pop, .pop, .notify, .notify]

theorem policies_mirrored_after_break :
    ∃ (s : Feed Bool Unit) (tr : List (Notification Bool)),
      exec (step flagged) (started Server.empty) brokenOff = some (s, tr) ∧
      s.resolver.policies.lookup "web" = some { name := "web", resourceVersion := "2" } ∧
      s.resolver.policies.lookup "batch" = none := by
  have h : Run (step flagged) (fun _ _ => True) (started Server.empty) _ _ :=
    Run.of_isSome brokenOff (allSteps_of_forall _ fun _ _ _ => trivial) (by decide)
  have hmirrored := policies_mirrored h rfl rfl rfl rfl
  refine ⟨_, _, rfl, (hmirrored "web").1 ⟨"web", "2", true⟩ _ (by decide) rfl,
    (hmirrored "batch").2 (by decide) ?_⟩
  intro u hu _
  have hu' : u ∈ [(⟨"web", "2", true⟩ : Object Bool), ⟨"batch", "1", true⟩] := hu
  rcases List.mem_pair.mp hu' with rfl | rfl
  · rfl
  · rfl

/-- The last version of a policy does not convert, and the policy is deleted: the
version before stays cached. -/
example :
    ((exec (step flagged) (started Server.empty)
        [.write ⟨"batch", "1", true⟩, .relist ["batch"], .pop, .notify,
          .write ⟨"batch", "2", false⟩, .remove "batch", .receive, .receive, .pop, .pop,
          .notify, .notify]).map fun r =>
        (decide ("batch" ∈ r.1.server.current), decide ("batch" ∈ r.1.resolver.policies))) =
      some (false, true) := by
  decide

end K8sSched.Agent.PolicyMirror
