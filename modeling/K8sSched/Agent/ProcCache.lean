import K8sSched.Agent.ProcFiles
import K8sSched.Lib.RwLock

/-! # The cached listing of /proc

`getProcDirCache` of `internal/maps/maps.go` among goroutines that resolve PIDs
by scanning `/proc`, while time passes and processes start, move to other cgroups
and exit. The listing is kept for `procCacheTTL` under a read-write lock, and the
`cgroup` files of its entries are read one by one after it has been returned; a
read may fail. A listing is younger than the TTL when it is returned, `/proc` is
not listed again within the TTL, and a process that was there before the listing
and has been in the pod since it was returned is found, unless its file could not
be read. -/

namespace K8sSched.Agent.ProcCache
open K8sSched.Bpf.Params K8sSched.Agent.CgroupFs K8sSched.Agent.Host K8sSched.Agent.ProcFiles
open K8sSched.Lib.RwLock K8sSched.Lib.Runs

/-- 5 seconds, in nanoseconds. -/
def procCacheTTL : Nat := 5000000000

/-- A process, the time at which it started, and that at which it came into its
cgroup. -/
structure Process where
  proc : Proc
  started : Nat
  entered : Nat

/-- The name of an entry of `/proc`, and whether it is a directory. -/
abbrev DirEntry := String × Bool

/-- Where a goroutine is in `resolveViaProcScan`. -/
inductive Pc where
  | idle
  | wantsRead (uid : String)
  /-- With the read lock, before the check. -/
  | reading (uid : String)
  | wantsWrite (uid : String)
  /-- In `Lock`, while there are readers. -/
  | waits (uid : String)
  /-- With the write lock, before the check. -/
  | writing (uid : String)
  /-- In `os.ReadDir`, since the given time. -/
  | listing (uid : String) (began : Nat)
  /-- Before the `cgroup` file of the next entry. -/
  | scanning (uid : String) (todo : List DirEntry) (found : List U32)
  deriving DecidableEq

def Pc.mode : Pc → Mode
  | .reading _ => .reads
  | .waits _ => .waits
  | .writing _ | .listing _ _ => .writes
  | _ => .outside

structure State (ι : Type) where
  now : Nat
  procs : Finmap fun _ : U32 => Process
  cache : Option (List DirEntry)
  expiry : Nat
  mu : RwMutex ι
  pc : ι → Pc

inductive Event (ι : Type) where
  | called (i : ι) (uid : String)
  /-- `os.ReadDir` has returned a listing; with its two ends. -/
  | listed (i : ι) (began ended : Nat) (entries : List DirEntry)
  /-- `getProcDirCache` has returned a listing, by the check at the given time. -/
  | returned (i : ι) (time : Nat) (entries : List DirEntry)
  /-- `os.ReadDir` has failed. -/
  | failed (i : ι)
  /-- The `cgroup` file of an entry could not be read. -/
  | unread (i : ι) (name : String)
  | resolved (i : ι) (uid : String) (pids : List U32)
  deriving DecidableEq

inductive Action (ι : Type) where
  | wait (ns : Nat)
  | start (pid : U32) (p : Proc)
  | exit (pid : U32)
  | migrate (pid : U32) (dir : Dir)
  | call (i : ι) (uid : String)
  | proceed (i : ι)
  /-- `os.ReadDir` returns. -/
  | list (i : ι) (entries : Option (List DirEntry))
  /-- `os.ReadFile` of the next entry returns. -/
  | read (i : ι) (ok : Bool)

/-- The file `cgroup` of an entry. -/
def cgroupFileOf (procs : Finmap fun _ : U32 => Process) (name : String) : Option String :=
  match parseInt 64 name.toList with
  | none => none
  | some n =>
    if toString (BitVec.ofInt 32 n).toNat = name then
      (procs.lookup (BitVec.ofInt 32 n)).map fun p => p.proc.cgroupFile
    else none

/-- The directories of the processes that were there before the given time. -/
def olderThan (procs : Finmap fun _ : U32 => Process) (time : Nat) : Finset DirEntry :=
  (procs.keys.filter fun pid => (procs.lookup pid).any fun p => p.started < time).image
    fun pid => (toString pid.toNat, true)

def migrated (procs : Finmap fun _ : U32 => Process) (pid : U32) (dir : Dir) (now : Nat) :
    Finmap fun _ : U32 => Process :=
  match procs.lookup pid with
  | none => procs
  | some p => procs.insert pid { p with proc := { p.proc with cgroup := dir }, entered := now }

variable {ι : Type}

/-- The listing that may still be used. -/
def State.cached (s : State ι) : Option (List DirEntry) :=
  if s.now < s.expiry then s.cache else none

variable [DecidableEq ι]

def State.goto (s : State ι) (i : ι) (pc : Pc) : State ι :=
  { s with pc := Function.update s.pc i pc }

def proceed (s : State ι) (i : ι) : Option (State ι × List (Event ι)) :=
  match s.pc i with
  | .wantsRead uid =>
    (s.mu.rLock i).map fun mu => ({ s with mu := mu }.goto i (.reading uid), [])
  | .reading uid =>
    match s.cached with
    | some entries =>
      some ({ s with mu := s.mu.rUnlock i }.goto i (.scanning uid entries []),
        [.returned i s.now entries])
    | none => some ({ s with mu := s.mu.rUnlock i }.goto i (.wantsWrite uid), [])
  | .wantsWrite uid =>
    (s.mu.announce i).map fun mu => ({ s with mu := mu }.goto i (.waits uid), [])
  | .waits uid => (s.mu.lock i).map fun mu => ({ s with mu := mu }.goto i (.writing uid), [])
  | .writing uid =>
    match s.cached with
    | some entries =>
      some ({ s with mu := s.mu.unlock }.goto i (.scanning uid entries []),
        [.returned i s.now entries])
    | none => some (s.goto i (.listing uid s.now), [])
  | .scanning uid [] found => some (s.goto i .idle, [.resolved i uid found])
  | _ => none

/-- `os.ReadDir` returns. -/
def readDir (s : State ι) (i : ι) (entries : Option (List DirEntry)) :
    Option (State ι × List (Event ι)) :=
  match s.pc i with
  | .listing uid began =>
    match entries with
    -- the nil listing has nothing to scan
    | none =>
      some ({ s with mu := s.mu.unlock }.goto i .idle, [.failed i, .resolved i uid []])
    | some entries =>
      -- a listing shows what was there all the time
      if olderThan s.procs began ⊆ entries.toFinset then
        some ({ s with
            cache := some entries, expiry := s.now + procCacheTTL, mu := s.mu.unlock }.goto i
              (.scanning uid entries []),
          [.listed i began s.now entries, .returned i s.now entries])
      else none
  | _ => none

/-- One turn of the loop; an entry whose file cannot be read is passed over. -/
def readFile (s : State ι) (i : ι) (ok : Bool) : Option (State ι × List (Event ι)) :=
  match s.pc i with
  | .scanning uid (entry :: todo) found =>
    let content := if ok then cgroupFileOf s.procs entry.1 else none
    some (s.goto i (.scanning uid todo
        (found ++ resolveViaProcScan [⟨entry.1, entry.2, content⟩] uid)),
      if ok then [] else [.unread i entry.1])
  | _ => none

def step (s : State ι) : Action ι → Option (State ι × List (Event ι))
  | .wait ns => some ({ s with now := s.now + ns }, [])
  | .start pid p =>
    if pid ∈ s.procs ∨ 2 ^ 31 ≤ pid.toNat then none
    else some ({ s with procs := s.procs.insert pid ⟨p, s.now, s.now⟩ }, [])
  | .exit pid => some ({ s with procs := s.procs.erase pid }, [])
  | .migrate pid dir => some ({ s with procs := migrated s.procs pid dir s.now }, [])
  | .call i uid =>
    if s.pc i = .idle then some (s.goto i (.wantsRead uid), [.called i uid]) else none
  | .proceed i => proceed s i
  | .list i entries => readDir s i entries
  | .read i ok => readFile s i ok

/-- Before the first call, with some processes. -/
def boot (procs : Finmap fun _ : U32 => Process) : State ι where
  now := 0
  procs := procs
  cache := none
  expiry := 0
  mu := RwMutex.free
  pc := fun _ => .idle

/-! ## What a step can do -/

inductive Does (s : State ι) : State ι → List (Event ι) → Prop
  | wait {ns : Nat} : Does s { s with now := s.now + ns } []
  | start {pid : U32} {p : Proc} (hpid : pid ∉ s.procs) (hlt : pid.toNat < 2 ^ 31) :
      Does s { s with procs := s.procs.insert pid ⟨p, s.now, s.now⟩ } []
  | exit {pid : U32} : Does s { s with procs := s.procs.erase pid } []
  | migrate {pid : U32} {dir : Dir} :
      Does s { s with procs := migrated s.procs pid dir s.now } []
  | call {i : ι} {uid : String} (hpc : s.pc i = .idle) :
      Does s (s.goto i (.wantsRead uid)) [.called i uid]
  | rLock {i : ι} {uid : String} {mu : RwMutex ι} (hpc : s.pc i = .wantsRead uid)
      (hmu : s.mu.rLock i = some mu) : Does s ({ s with mu := mu }.goto i (.reading uid)) []
  | readHit {i : ι} {uid : String} {entries : List DirEntry} (hpc : s.pc i = .reading uid)
      (hc : s.cached = some entries) :
      Does s ({ s with mu := s.mu.rUnlock i }.goto i (.scanning uid entries []))
        [.returned i s.now entries]
  | readMiss {i : ι} {uid : String} (hpc : s.pc i = .reading uid) (hc : s.cached = none) :
      Does s ({ s with mu := s.mu.rUnlock i }.goto i (.wantsWrite uid)) []
  | announce {i : ι} {uid : String} {mu : RwMutex ι} (hpc : s.pc i = .wantsWrite uid)
      (hmu : s.mu.announce i = some mu) : Does s ({ s with mu := mu }.goto i (.waits uid)) []
  | lock {i : ι} {uid : String} {mu : RwMutex ι} (hpc : s.pc i = .waits uid)
      (hmu : s.mu.lock i = some mu) : Does s ({ s with mu := mu }.goto i (.writing uid)) []
  | writeHit {i : ι} {uid : String} {entries : List DirEntry} (hpc : s.pc i = .writing uid)
      (hc : s.cached = some entries) :
      Does s ({ s with mu := s.mu.unlock }.goto i (.scanning uid entries []))
        [.returned i s.now entries]
  | writeMiss {i : ι} {uid : String} (hpc : s.pc i = .writing uid) (hc : s.cached = none) :
      Does s (s.goto i (.listing uid s.now)) []
  | fail {i : ι} {uid : String} {began : Nat} (hpc : s.pc i = .listing uid began) :
      Does s ({ s with mu := s.mu.unlock }.goto i .idle) [.failed i, .resolved i uid []]
  | list {i : ι} {uid : String} {began : Nat} {entries : List DirEntry}
      (hpc : s.pc i = .listing uid began)
      (hshown : ∀ pid p, s.procs.lookup pid = some p → p.started < began →
        (toString pid.toNat, true) ∈ entries) :
      Does s ({ s with
          cache := some entries, expiry := s.now + procCacheTTL, mu := s.mu.unlock }.goto i
            (.scanning uid entries []))
        [.listed i began s.now entries, .returned i s.now entries]
  | read {i : ι} {uid : String} {entry : DirEntry} {todo : List DirEntry} {found : List U32}
      (hpc : s.pc i = .scanning uid (entry :: todo) found) :
      Does s (s.goto i (.scanning uid todo (found ++
        resolveViaProcScan [⟨entry.1, entry.2, cgroupFileOf s.procs entry.1⟩] uid))) []
  | unread {i : ι} {uid : String} {entry : DirEntry} {todo : List DirEntry} {found : List U32}
      (hpc : s.pc i = .scanning uid (entry :: todo) found) :
      Does s (s.goto i (.scanning uid todo (found ++
        resolveViaProcScan [⟨entry.1, entry.2, none⟩] uid))) [.unread i entry.1]
  | resolve {i : ι} {uid : String} {found : List U32} (hpc : s.pc i = .scanning uid [] found) :
      Does s (s.goto i .idle) [.resolved i uid found]

theorem proceed_does {s t : State ι} {i : ι} {es : List (Event ι)}
    (h : proceed s i = some (t, es)) : Does s t es := by
  simp only [proceed] at h
  split at h
  · next uid hpc =>
    obtain ⟨mu, hmu, heq⟩ := Option.map_eq_some_iff.mp h
    cases heq
    exact .rLock hpc hmu
  · next uid hpc =>
    split at h
    · next entries hc => cases h; exact .readHit hpc hc
    · next hc => cases h; exact .readMiss hpc hc
  · next uid hpc =>
    obtain ⟨mu, hmu, heq⟩ := Option.map_eq_some_iff.mp h
    cases heq
    exact .announce hpc hmu
  · next uid hpc =>
    obtain ⟨mu, hmu, heq⟩ := Option.map_eq_some_iff.mp h
    cases heq
    exact .lock hpc hmu
  · next uid hpc =>
    split at h
    · next entries hc => cases h; exact .writeHit hpc hc
    · next hc => cases h; exact .writeMiss hpc hc
  · next hpc => cases h; exact .resolve hpc
  · cases h

theorem readDir_does {s t : State ι} {i : ι} {entries : Option (List DirEntry)}
    {es : List (Event ι)} (h : readDir s i entries = some (t, es)) : Does s t es := by
  simp only [readDir] at h
  split at h
  · next uid began hpc =>
    split at h
    · cases h; exact .fail hpc
    · next entries =>
      split at h
      · next hshown =>
        cases h
        refine .list hpc fun pid p hp hstarted => List.mem_toFinset.mp (hshown ?_)
        refine Finset.mem_image_of_mem _ (Finset.mem_filter.mpr ⟨?_, by simpa [hp] using hstarted⟩)
        exact Finmap.mem_keys.mpr (Finmap.mem_of_lookup_eq_some hp)
      · cases h
  · cases h

theorem readFile_does {s t : State ι} {i : ι} {ok : Bool} {es : List (Event ι)}
    (h : readFile s i ok = some (t, es)) : Does s t es := by
  simp only [readFile] at h
  split at h
  · next hpc =>
    cases ok with
    | true => cases h; exact .read hpc
    | false => cases h; exact .unread hpc
  · cases h

theorem step_does {s t : State ι} {a : Action ι} {es : List (Event ι)}
    (h : step s a = some (t, es)) : Does s t es := by
  cases a with
  | wait ns => cases h; exact .wait
  | start pid p =>
    simp only [step] at h
    split at h
    · cases h
    · next hg =>
      obtain ⟨hpid, hlt⟩ := not_or.mp hg
      cases h
      exact .start hpid (Nat.lt_of_not_le hlt)
  | exit pid => cases h; exact .exit
  | migrate pid dir => cases h; exact .migrate
  | call i uid =>
    simp only [step] at h
    split at h
    · next hpc => cases h; exact .call hpc
    · cases h
  | proceed i => exact proceed_does h
  | list i entries => exact readDir_does h
  | read i ok => exact readFile_does h

theorem lookup_migrated {procs : Finmap fun _ : U32 => Process} {pid pid' : U32} {dir : Dir}
    {now : Nat} {p : Process} (hp : (migrated procs pid' dir now).lookup pid = some p) :
    procs.lookup pid = some p ∨
      ∃ q, procs.lookup pid = some q ∧ p.started = q.started ∧ p.entered = now := by
  unfold migrated at hp
  split at hp
  · exact .inl hp
  · next q hq =>
    by_cases heq : pid = pid'
    · subst heq
      rw [Finmap.lookup_insert, Option.some.injEq] at hp
      exact .inr ⟨q, hq, by rw [← hp], by rw [← hp]⟩
    · rw [Finmap.lookup_insert_of_ne _ heq] at hp
      exact .inl hp

/-- A process that is there after a step was there before it, perhaps in another
cgroup, or has just started. -/
theorem does_procs {s t : State ι} {es : List (Event ι)} (hd : Does s t es) {pid : U32}
    {p : Process} (hp : t.procs.lookup pid = some p) :
    s.procs.lookup pid = some p ∨
      (∃ q, s.procs.lookup pid = some q ∧ p.started = q.started ∧ p.entered = s.now) ∨
      p.started = s.now ∧ pid.toNat < 2 ^ 31 := by
  cases hd with
  | @start pid' p' hpid hlt =>
    by_cases heq : pid = pid'
    · subst heq
      rw [Finmap.lookup_insert, Option.some.injEq] at hp
      exact .inr (.inr ⟨by rw [← hp], hlt⟩)
    · rw [Finmap.lookup_insert_of_ne _ heq] at hp
      exact .inl hp
  | @exit pid' =>
    by_cases heq : pid = pid'
    · subst heq
      simp at hp
    · rw [Finmap.lookup_erase_ne heq] at hp
      exact .inl hp
  | migrate => exact (lookup_migrated hp).imp_right .inl
  | _ => exact .inl hp

/-! ## The cache -/

/-- The listing was there at a time at which the cache could return it. -/
def Fresh (tr : List (Event ι)) (time : Nat) (entries : List DirEntry) : Prop :=
  ∃ j began ended, .listed j began ended entries ∈ tr ∧ ended ≤ time ∧
    time < ended + procCacheTTL

/-- Of two listings, the second began when the first had expired. -/
def Apart : Event ι → Event ι → Prop
  | .listed _ _ ended _, .listed _ began _ _ => ended + procCacheTTL ≤ began
  | _, _ => True

structure Inv (tr : List (Event ι)) (s : State ι) : Prop where
  /-- A listing shows what was there before it and still is. -/
  listed : ∀ j began ended entries, .listed j began ended entries ∈ tr →
    began ≤ ended ∧ ended ≤ s.now ∧ ended + procCacheTTL ≤ s.expiry ∧
      ∀ pid p, s.procs.lookup pid = some p → p.started < began →
        (toString pid.toNat, true) ∈ entries
  cache : ∀ entries, s.cache = some entries →
    ∃ j began ended, .listed j began ended entries ∈ tr ∧ s.expiry = ended + procCacheTTL
  empty : s.cache = none → s.expiry = 0
  listing : ∀ i uid began, s.pc i = .listing uid began → began ≤ s.now ∧ s.expiry ≤ began
  mutex : Agrees s.mu fun i => (s.pc i).mode
  returned : ∀ i time entries, .returned i time entries ∈ tr → Fresh tr time entries
  apart : tr.Pairwise Apart

section Inv

variable {s t : State ι} {tr es : List (Event ι)}

section

omit [DecidableEq ι]

theorem cached_eq_some {entries : List DirEntry} (h : s.cached = some entries) :
    s.now < s.expiry ∧ s.cache = some entries := by
  unfold State.cached at h
  split at h
  · next hlt => exact ⟨hlt, h⟩
  · cases h

theorem Fresh.append {time : Nat} {entries : List DirEntry} (h : Fresh tr time entries) :
    Fresh (tr ++ es) time entries := by
  obtain ⟨j, began, ended, hmem, h1, h2⟩ := h
  exact ⟨j, began, ended, List.mem_append_left _ hmem, h1, h2⟩

theorem Inv.fresh (h : Inv tr s) {entries : List DirEntry} (hc : s.cached = some entries) :
    Fresh tr s.now entries := by
  obtain ⟨hlt, hcache⟩ := cached_eq_some hc
  obtain ⟨j, began, ended, hmem, hexp⟩ := h.cache entries hcache
  obtain ⟨-, hend, -, -⟩ := h.listed _ _ _ _ hmem
  exact ⟨j, began, ended, hmem, hend, by omega⟩

theorem Inv.fresh_of_mem (h : Inv tr s) {i : ι} {entries : List DirEntry}
    (hc : s.cached = some entries) (j : ι) (time : Nat) (entries' : List DirEntry)
    (hmem : .returned j time entries' ∈ [Event.returned i s.now entries]) :
    Fresh tr time entries' := by
  rw [List.mem_singleton, Event.returned.injEq] at hmem
  obtain ⟨-, rfl, rfl⟩ := hmem
  exact h.fresh hc

/-- One goroutine at a time is between `Lock` and `Unlock`. -/
theorem Inv.writes_unique (h : Inv tr s) {i j : ι} (hi : (s.pc i).mode = .writes)
    (hj : (s.pc j).mode = .writes) : i = j :=
  Option.some.inj (((h.mutex.writer i).mpr hi).symm.trans ((h.mutex.writer j).mpr hj))

/-- A check that fails finds the last listing expired. -/
theorem Inv.expired (h : Inv tr s) (hc : s.cached = none) : s.expiry ≤ s.now := by
  unfold State.cached at hc
  split at hc
  · next hlt =>
    have h0 := h.empty hc
    omega
  · next hlt => omega

theorem Apart.of_not_listed {e e' : Event ι}
    (h : ∀ j began ended entries, e' ≠ .listed j began ended entries) : Apart e e' := by
  cases e' with
  | listed j began ended entries => exact absurd rfl (h j began ended entries)
  | called | returned | failed | unread | resolved => cases e <;> trivial

end

theorem pc_goto {i j : ι} {pc pc' : Pc} (h : (s.goto i pc).pc j = pc') :
    j = i ∧ pc = pc' ∨ j ≠ i ∧ s.pc j = pc' := by
  by_cases hj : j = i
  · exact .inl ⟨hj, by simpa [State.goto, hj] using h⟩
  · exact .inr ⟨hj, by simpa [State.goto, hj] using h⟩

theorem mode_goto (i : ι) (pc : Pc) : (fun j => ((s.goto i pc).pc j).mode) =
    Function.update (fun j => (s.pc j).mode) i pc.mode := by
  funext j
  by_cases hj : j = i
  · simp [hj, State.goto]
  · simp [hj, State.goto]

/-- A step that lists nothing. -/
theorem Inv.quiet (h : Inv tr s) (hd : Does s t es)
    (hes : ∀ j began ended entries, .listed j began ended entries ∉ es)
    (hnow : s.now ≤ t.now) (hexp : t.expiry = s.expiry) (hcache : t.cache = s.cache)
    (hlisting : ∀ i uid began, t.pc i = .listing uid began → began ≤ t.now ∧ t.expiry ≤ began)
    (hmutex : Agrees t.mu fun i => (t.pc i).mode)
    (hret : ∀ i time entries, .returned i time entries ∈ es → Fresh tr time entries) :
    Inv (tr ++ es) t where
  listed := by
    intro j began ended entries hmem
    have hold := (List.mem_append.mp hmem).resolve_right (hes j began ended entries)
    obtain ⟨h1, h2, h3, h4⟩ := h.listed j began ended entries hold
    refine ⟨h1, h2.trans hnow, by rwa [hexp], fun pid p hp hstarted => ?_⟩
    rcases does_procs hd hp with hp | ⟨q, hq, heq, -⟩ | ⟨hnew, -⟩
    · exact h4 pid p hp hstarted
    · exact h4 pid q hq (heq ▸ hstarted)
    · omega
  cache := by
    intro entries hc
    rw [hcache] at hc
    obtain ⟨j, began, ended, hmem, heq⟩ := h.cache entries hc
    exact ⟨j, began, ended, List.mem_append_left _ hmem, hexp.trans heq⟩
  empty := by
    rw [hcache, hexp]
    exact h.empty
  listing := hlisting
  mutex := hmutex
  returned := by
    intro i time entries hmem
    rcases List.mem_append.mp hmem with hmem | hmem
    · exact (h.returned i time entries hmem).append
    · exact (hret i time entries hmem).append
  apart := by
    have hnot : ∀ e ∈ es, ∀ j began ended entries, e ≠ .listed j began ended entries := by
      intro e he j began ended entries heq
      exact hes j began ended entries (heq ▸ he)
    refine List.pairwise_append.mpr ⟨h.apart, ?_, fun _ _ e he => .of_not_listed (hnot e he)⟩
    exact List.Pairwise.imp_of_mem (fun _ he _ => .of_not_listed (hnot _ he))
      (List.pairwise_of_forall (R := fun _ _ => True) fun _ _ => trivial)

/-- The goroutine `i` goes on to `pc` with the lock as it is then, and lists
nothing. -/
theorem Inv.moves (h : Inv tr s) {mu : RwMutex ι} {i : ι} {pc : Pc}
    (hd : Does s ({ s with mu := mu }.goto i pc) es)
    (hmu : Agrees mu (Function.update (fun j => (s.pc j).mode) i pc.mode))
    (hes : ∀ j began ended entries, .listed j began ended entries ∉ es)
    (hlisting : ∀ uid began, pc = .listing uid began → began ≤ s.now ∧ s.expiry ≤ began)
    (hret : ∀ i time entries, .returned i time entries ∈ es → Fresh tr time entries) :
    Inv (tr ++ es) ({ s with mu := mu }.goto i pc) := by
  refine h.quiet hd hes le_rfl rfl rfl (fun j uid began hj => ?_) ?_ hret
  · rcases pc_goto hj with ⟨-, hpc⟩ | ⟨-, hold⟩
    · exact hlisting uid began hpc
    · exact h.listing j uid began hold
  · rw [mode_goto]
    exact hmu

/-- As `Inv.moves`, where the goroutine keeps what it has of the lock. -/
theorem Inv.stays (h : Inv tr s) {i : ι} {pc : Pc} (hd : Does s (s.goto i pc) es)
    (hmode : pc.mode = (s.pc i).mode)
    (hes : ∀ j began ended entries, .listed j began ended entries ∉ es)
    (hlisting : ∀ uid began, pc = .listing uid began → began ≤ s.now ∧ s.expiry ≤ began)
    (hret : ∀ i time entries, .returned i time entries ∈ es → Fresh tr time entries) :
    Inv (tr ++ es) (s.goto i pc) := by
  refine h.moves hd ?_ hes hlisting hret
  rw [hmode, Function.update_eq_self]
  exact h.mutex

/-- The goroutine with the write lock lists `/proc` and stores the listing. -/
theorem Inv.lists (h : Inv tr s) {i : ι} {uid : String} {began : Nat} {entries : List DirEntry}
    (hpc : s.pc i = .listing uid began)
    (hshown : ∀ pid p, s.procs.lookup pid = some p → p.started < began →
      (toString pid.toNat, true) ∈ entries) :
    Inv (tr ++ [.listed i began s.now entries, .returned i s.now entries])
      ({ s with
          cache := some entries, expiry := s.now + procCacheTTL, mu := s.mu.unlock }.goto i
            (.scanning uid entries [])) := by
  obtain ⟨hbegan, hexp⟩ := h.listing i uid began hpc
  have hwrites : (s.pc i).mode = .writes := by rw [hpc]; rfl
  have hnew : .listed i began s.now entries ∈
      tr ++ [Event.listed i began s.now entries, .returned i s.now entries] := by simp
  refine ⟨?_, ?_, by simp [State.goto], ?_, ?_, ?_, ?_⟩
  · intro j began' ended entries' hmem
    rcases List.mem_append.mp hmem with hmem | hmem
    · obtain ⟨h1, h2, h3, h4⟩ := h.listed _ _ _ _ hmem
      exact ⟨h1, h2, by simp only [State.goto]; omega, h4⟩
    · simp only [List.mem_cons, Event.listed.injEq, reduceCtorEq, List.not_mem_nil,
        or_false] at hmem
      obtain ⟨rfl, rfl, rfl, rfl⟩ := hmem
      exact ⟨hbegan, le_refl _, le_refl _, hshown⟩
  · intro entries' hc
    cases hc
    exact ⟨i, began, s.now, hnew, rfl⟩
  · intro j uid' began' hj
    rcases pc_goto hj with ⟨-, hpc'⟩ | ⟨hji, hold⟩
    · cases hpc'
    · -- no other goroutine lists meanwhile
      have hj' : s.pc j = .listing uid' began' := hold
      exact absurd (h.writes_unique (by rw [hj']; rfl) hwrites) hji
  · rw [mode_goto]
    exact h.mutex.unlock hwrites
  · intro j time entries' hmem
    rcases List.mem_append.mp hmem with hmem | hmem
    · exact (h.returned j time entries' hmem).append
    · simp only [List.mem_cons, reduceCtorEq, Event.returned.injEq, List.not_mem_nil, or_false,
        false_or] at hmem
      obtain ⟨-, rfl, rfl⟩ := hmem
      exact ⟨i, began, s.now, hnew, le_refl _, by unfold procCacheTTL; omega⟩
  · refine List.pairwise_append.mpr ⟨h.apart, by simp [Apart], fun e he e' he' => ?_⟩
    simp only [List.mem_cons, List.not_mem_nil, or_false] at he'
    rcases he' with rfl | rfl
    · cases e with
      | listed j began' ended' entries' => exact (h.listed _ _ _ _ he).2.2.1.trans hexp
      | called | returned | failed | unread | resolved => trivial
    · exact .of_not_listed (by simp)

theorem Inv.step (h : Inv tr s) (hd : Does s t es) : Inv (tr ++ es) t := by
  have hquiet := h.quiet hd
  cases hd with
  | @wait ns =>
    refine hquiet (by simp) (Nat.le_add_right _ _) rfl rfl ?_ h.mutex (by simp)
    intro i uid began hi
    obtain ⟨h1, h2⟩ := h.listing i uid began hi
    exact ⟨Nat.le_add_right_of_le h1, h2⟩
  | start | exit | migrate =>
    exact hquiet (by simp) (le_refl _) rfl rfl h.listing h.mutex (by simp)
  | call hpc =>
    exact h.stays (.call hpc) (by rw [hpc]; rfl) (by simp) (by simp) (by simp)
  | read hpc => exact h.stays (.read hpc) (by rw [hpc]; rfl) (by simp) (by simp) (by simp)
  | unread hpc => exact h.stays (.unread hpc) (by rw [hpc]; rfl) (by simp) (by simp) (by simp)
  | resolve hpc => exact h.stays (.resolve hpc) (by rw [hpc]; rfl) (by simp) (by simp) (by simp)
  | rLock hpc hmu =>
    exact h.moves (.rLock hpc hmu) (h.mutex.rLock hmu) (by simp) (by simp) (by simp)
  | readHit hpc hc =>
    exact h.moves (.readHit hpc hc) (h.mutex.rUnlock (by rw [hpc]; rfl)) (by simp) (by simp)
      (h.fresh_of_mem hc)
  | readMiss hpc hc =>
    exact h.moves (.readMiss hpc hc) (h.mutex.rUnlock (by rw [hpc]; rfl)) (by simp) (by simp)
      (by simp)
  | announce hpc hmu =>
    exact h.moves (.announce hpc hmu) (h.mutex.announce (by rw [hpc]; rfl) hmu) (by simp)
      (by simp) (by simp)
  | lock hpc hmu =>
    exact h.moves (.lock hpc hmu) (h.mutex.lock hmu) (by simp) (by simp) (by simp)
  | writeHit hpc hc =>
    exact h.moves (.writeHit hpc hc) (h.mutex.unlock (by rw [hpc]; rfl)) (by simp) (by simp)
      (h.fresh_of_mem hc)
  | writeMiss hpc hc =>
    refine h.stays (.writeMiss hpc hc) (by rw [hpc]; rfl) (by simp) ?_ (by simp)
    intro uid began heq
    cases heq
    exact ⟨le_refl _, h.expired hc⟩
  | fail hpc =>
    exact h.moves (.fail hpc) (h.mutex.unlock (by rw [hpc]; rfl)) (by simp) (by simp) (by simp)
  | list hpc hshown => exact h.lists hpc hshown

omit [DecidableEq ι] in
theorem boot_inv (procs : Finmap fun _ : U32 => Process) : Inv [] (boot (ι := ι) procs) where
  listed := by simp
  cache := by simp [boot]
  empty := by simp [boot]
  listing := by simp [boot]
  mutex := free_agrees fun _ => rfl
  returned := by simp
  apart := List.Pairwise.nil

theorem Run.inv {ok : State ι → Action ι → Prop} {procs : Finmap fun _ : U32 => Process}
    (h : Run step ok (boot procs) tr s) : Inv tr s :=
  h.invariant (boot_inv procs) fun _ _ _ _ _ hI _ hstep => hI.step (step_does hstep)

end Inv

/-- Whatever the goroutines, the processes and the clock do: a listing that is
returned was stored less than the TTL before, `/proc` is listed again only when
the last listing has expired, and by one goroutine at a time. -/
theorem listing_cached {ok : State ι → Action ι → Prop} {procs : Finmap fun _ : U32 => Process}
    {tr : List (Event ι)} {s : State ι} (h : Run step ok (boot procs) tr s) :
    (∀ i time entries, .returned i time entries ∈ tr → Fresh tr time entries) ∧
      tr.Pairwise Apart ∧
      ∀ i j uid uid' began began', s.pc i = .listing uid began → s.pc j = .listing uid' began' →
        i = j := by
  have hinv := Run.inv h
  refine ⟨hinv.returned, hinv.apart, fun i j uid uid' began began' hi hj => ?_⟩
  exact hinv.writes_unique (by rw [hi]; rfl) (by rw [hj]; rfl)

/-- Two goroutines find no listing; the one waits for the lock while the other
lists `/proc`. -/
def twoMisses : List (Action Bool) :=
  [.wait 1, .call true "a", .call false "a", .proceed true, .proceed false, .proceed true,
    .proceed false, .proceed true, .proceed true, .proceed true, .wait 2,
    .list true (some [("7", true), ("8", true)]), .wait 3, .proceed false, .proceed false,
    .proceed false]

def inPod (dir : String) : Process := ⟨⟨some "a", ⟨[dir, "kubepods"], 1⟩⟩, 0, 0⟩

/-- Two processes in the directory of the pod `a`. -/
def podProcs : Finmap fun _ : U32 => Process :=
  (Finmap.singleton 7 (inPod "poda")).insert 8 (inPod "poda")

/-- The second check gives the goroutine that waited the listing of the other. -/
theorem listing_cached_second_check :
    ∃ (tr : List (Event Bool)) (s : State Bool), Run step (fun _ _ => True) (boot podProcs) tr s ∧
      .returned false 6 [("7", true), ("8", true)] ∈ tr ∧
      Fresh tr 6 [("7", true), ("8", true)] := by
  have h : Run step (fun _ _ => True) (boot podProcs) _ _ :=
    Run.of_isSome twoMisses (allSteps_of_forall _ fun _ _ _ => trivial) (by decide)
  have hret : Event.returned false 6 [("7", true), ("8", true)] ∈
      ((exec step (boot podProcs) twoMisses).get (by decide)).2 := by decide
  exact ⟨_, _, h, hret, (listing_cached h).1 false 6 _ hret⟩

/-! ## The scan -/

/-- The `cgroup` file names the pod. -/
def Names (uid : String) (p : Process) : Prop :=
  ∃ marker ∈ podMarkers uid, marker.toList <:+: p.proc.cgroupFile.toList

/-- The last call of the goroutine was given its listing at `time`, made from
`began` on and then younger than the TTL; `after` is what has happened since. -/
structure Given (tr : List (Event ι)) (i : ι) (began time : Nat) (after : List (Event ι)) :
    Prop where
  fresh : ∃ before j ended entries, tr = before ++ .returned i time entries :: after ∧
    .listed j began ended entries ∈ tr ∧ ended ≤ time ∧ time < ended + procCacheTTL
  same_call : ∀ uid, .called i uid ∉ after

/-- A scan has found the processes that were there before the listing and in the pod
since it was returned, could not read their files, or has their entries still to
look at. -/
def Finds (s : State ι) (i : ι) (began time : Nat) (after : List (Event ι)) (uid : String)
    (found : List U32) (todo : List DirEntry) : Prop :=
  ∀ pid p, s.procs.lookup pid = some p → p.started < began → p.entered < time → Names uid p →
    pid ∈ found ∨ .unread i (toString pid.toNat) ∈ after ∨ (toString pid.toNat, true) ∈ todo

structure ScanInv (tr : List (Event ι)) (s : State ι) : Prop where
  cache : Inv tr s
  pid_lt : ∀ pid p, s.procs.lookup pid = some p → pid.toNat < 2 ^ 31
  scans : ∀ i uid todo found, s.pc i = .scanning uid todo found →
    ∃ began time after, began ≤ s.now ∧ time ≤ s.now ∧ Given tr i began time after ∧
      Finds s i began time after uid found todo

section Scan

variable {s t : State ι} {tr es : List (Event ι)}

theorem cgroupFileOf_pid {procs : Finmap fun _ : U32 => Process} {pid : U32} {p : Process}
    (hp : procs.lookup pid = some p) (hlt : pid.toNat < 2 ^ 31) :
    cgroupFileOf procs (toString pid.toNat) = some p.proc.cgroupFile := by
  unfold cgroupFileOf
  rw [toList_toString, parseInt_digits 64 (by omega)]
  simp only
  rw [ofInt_toNat, if_pos rfl, hp]
  rfl

/-- The directory of a process of the pod gives its PID. -/
theorem mem_scan {procs : Finmap fun _ : U32 => Process} {pid : U32} {p : Process} {uid : String}
    (hp : procs.lookup pid = some p) (hlt : pid.toNat < 2 ^ 31) (hn : Names uid p) :
    pid ∈ resolveViaProcScan
      [⟨toString pid.toNat, true, cgroupFileOf procs (toString pid.toNat)⟩] uid := by
  rw [cgroupFileOf_pid hp hlt]
  unfold ProcFiles.resolveViaProcScan
  refine List.mem_filterMap.mpr ⟨_, List.mem_singleton_self _, ?_⟩
  simp only [if_true, toList_toString]
  rw [parseInt_digits 64 (by omega)]
  simp only
  rw [if_pos (by simpa [Names] using hn), ofInt_toNat]

omit [DecidableEq ι] in
theorem Given.append {i : ι} {began time : Nat} {after : List (Event ι)}
    (h : Given tr i began time after) (hes : ∀ uid, .called i uid ∉ es) :
    Given (tr ++ es) i began time (after ++ es) := by
  obtain ⟨⟨before, j, ended, entries, htr, hmem, hle, hlt⟩, hsame⟩ := h
  refine ⟨⟨before, j, ended, entries, ?_, List.mem_append_left _ hmem, hle, hlt⟩, fun uid => ?_⟩
  · rw [htr, List.append_assoc, List.cons_append]
  · rw [List.mem_append]
    exact not_or.mpr ⟨hsame uid, hes uid⟩

/-- Where a goroutine that scans comes from. -/
inductive Scanned (s t : State ι) (es : List (Event ι)) (i : ι) (uid : String)
    (todo : List DirEntry) (found : List U32) : Prop
  | same (hpc : s.pc i = .scanning uid todo found)
  | read {entry : DirEntry} {found' : List U32}
      (hpc : s.pc i = .scanning uid (entry :: todo) found') (hprocs : t.procs = s.procs)
      (hfound : found = found' ++
        resolveViaProcScan [⟨entry.1, entry.2, cgroupFileOf s.procs entry.1⟩] uid)
  | unread {entry : DirEntry} {found' : List U32}
      (hpc : s.pc i = .scanning uid (entry :: todo) found')
      (hfound : ∀ pid ∈ found', pid ∈ found) (hes : .unread i entry.1 ∈ es)
  | given (es' : List (Event ι)) (hes : es = es' ++ [.returned i s.now todo])

theorem does_scanned (hd : Does s t es) {i : ι} {uid : String} {todo : List DirEntry}
    {found : List U32} (hi : t.pc i = .scanning uid todo found) :
    Scanned s t es i uid todo found := by
  cases hd with
  | wait | start | exit | migrate => exact .same hi
  | call | rLock | readMiss | announce | lock | writeMiss | fail | resolve =>
    rcases pc_goto hi with ⟨-, heq⟩ | ⟨-, hold⟩
    · cases heq
    · exact .same hold
  | readHit | writeHit =>
    rcases pc_goto hi with ⟨rfl, heq⟩ | ⟨-, hold⟩
    · cases heq
      exact .given [] rfl
    · exact .same hold
  | list =>
    rcases pc_goto hi with ⟨rfl, heq⟩ | ⟨-, hold⟩
    · cases heq
      exact .given [_] rfl
    · exact .same hold
  | read hpc =>
    rcases pc_goto hi with ⟨rfl, heq⟩ | ⟨-, hold⟩
    · cases heq
      exact .read hpc rfl rfl
    · exact .same hold
  | unread hpc =>
    rcases pc_goto hi with ⟨rfl, heq⟩ | ⟨-, hold⟩
    · cases heq
      exact .unread hpc (fun _ => List.mem_append_left _) (List.mem_singleton_self _)
    · exact .same hold

/-- A goroutine that scans is not called. -/
theorem does_not_called (hd : Does s t es) {i : ι} {uid : String} {todo : List DirEntry}
    {found : List U32} (hpc : s.pc i = .scanning uid todo found) (uid' : String) :
    .called i uid' ∉ es := by
  cases hd with
  | @call k uid'' hidle =>
    intro hmem
    rw [List.mem_singleton, Event.called.injEq] at hmem
    rw [hmem.1, hidle] at hpc
    cases hpc
  | _ => simp

theorem does_now (hd : Does s t es) : s.now ≤ t.now := by
  cases hd with
  | wait => exact Nat.le_add_right _ _
  | _ => exact le_refl _

/-- What happens meanwhile leaves a scan what it has found and has to look at. -/
theorem Finds.step {i : ι} {began time : Nat} {after : List (Event ι)} {uid : String}
    {found : List U32} {todo : List DirEntry} (h : Finds s i began time after uid found todo)
    (hbegan : began ≤ s.now) (htime : time ≤ s.now) (hd : Does s t es) :
    Finds t i began time (after ++ es) uid found todo := by
  intro pid p hp hstarted hentered hn
  rcases does_procs hd hp with hp | ⟨q, -, -, hnow⟩ | ⟨hnew, -⟩
  · exact (h pid p hp hstarted hentered hn).imp_right (.imp_left (List.mem_append_left _))
  · omega
  · omega

omit [DecidableEq ι] in
/-- The entry that has been looked at is not needed any more. -/
theorem Finds.pass {i : ι} {began time : Nat} {after : List (Event ι)} {uid : String}
    {entry : DirEntry} {found found' : List U32} {todo : List DirEntry}
    (h : Finds s i began time after uid found' (entry :: todo))
    (hfound : ∀ pid ∈ found', pid ∈ found)
    (hentry : ∀ pid p, s.procs.lookup pid = some p → Names uid p →
      (toString pid.toNat, true) = entry →
        pid ∈ found ∨ .unread i (toString pid.toNat) ∈ after) :
    Finds s i began time after uid found todo := by
  intro pid p hp hstarted hentered hn
  rcases h pid p hp hstarted hentered hn with hin | hin | hin
  · exact .inl (hfound pid hin)
  · exact .inr (.inl hin)
  · rcases List.mem_cons.mp hin with heq | hin
    · exact (hentry pid p hp hn heq).imp_right .inl
    · exact .inr (.inr hin)

theorem ScanInv.step (h : ScanInv tr s) (hd : Does s t es) : ScanInv (tr ++ es) t where
  cache := h.cache.step hd
  pid_lt := by
    intro pid p hp
    rcases does_procs hd hp with hp | ⟨q, hq, -⟩ | hnew
    · exact h.pid_lt pid p hp
    · exact h.pid_lt pid q hq
    · exact hnew.2
  scans := by
    intro i uid todo found hi
    have hnow := does_now hd
    cases does_scanned hd hi with
    | same hold =>
      obtain ⟨began, time, after, hb, ht, hgiven, hfinds⟩ := h.scans i _ _ _ hold
      exact ⟨began, time, after ++ es, hb.trans hnow, ht.trans hnow,
        hgiven.append (does_not_called hd hold), hfinds.step hb ht hd⟩
    | read hold hprocs hfound =>
      obtain ⟨began, time, after, hb, ht, hgiven, hfinds⟩ := h.scans i _ _ _ hold
      refine ⟨began, time, after ++ es, hb.trans hnow, ht.trans hnow,
        hgiven.append (does_not_called hd hold), (hfinds.step hb ht hd).pass ?_ ?_⟩
      · rw [hfound]
        exact fun _ => List.mem_append_left _
      · intro pid p hp hn heq
        rw [hprocs] at hp
        rw [hfound, ← heq]
        exact .inl (List.mem_append_right _ (mem_scan hp (h.pid_lt pid p hp) hn))
    | unread hold hfound hes =>
      obtain ⟨began, time, after, hb, ht, hgiven, hfinds⟩ := h.scans i _ _ _ hold
      refine ⟨began, time, after ++ es, hb.trans hnow, ht.trans hnow,
        hgiven.append (does_not_called hd hold), (hfinds.step hb ht hd).pass hfound ?_⟩
      intro pid p _ _ heq
      rw [← heq] at hes
      exact .inr (List.mem_append_right _ hes)
    | given es' hes =>
      -- the listing it has just been given shows all of them
      have hnew : .returned i s.now todo ∈ tr ++ es := by simp [hes]
      obtain ⟨j, began, ended, hlisted, hle, hlt⟩ := (h.cache.step hd).returned _ _ _ hnew
      obtain ⟨hbegan, hended, -, hshown⟩ := (h.cache.step hd).listed _ _ _ _ hlisted
      refine ⟨began, s.now, [], hbegan.trans hended, hnow,
        ⟨⟨tr ++ es', j, ended, todo, by rw [hes, List.append_assoc], hlisted, hle, hlt⟩,
          by simp⟩, fun pid p hp hstarted _ _ => ?_⟩
      exact .inr (.inr (hshown pid p hp hstarted))

theorem Run.scanInv {ok : State ι → Action ι → Prop} {procs : Finmap fun _ : U32 => Process}
    (hlt : ∀ pid p, procs.lookup pid = some p → pid.toNat < 2 ^ 31)
    (h : Run step ok (boot procs) tr s) : ScanInv tr s :=
  h.invariant ⟨boot_inv procs, hlt, by simp [boot]⟩ fun _ _ _ _ _ hI _ hstep =>
    hI.step (step_does hstep)

end Scan

/-- When a scan of `/proc` returns, this call has used a listing that was younger
than the TTL when it was given it, and every process that was there before that
listing and has been in the pod since it was given is among the PIDs, unless this
call could not read its file. -/
theorem scan_finds_older {ok : State ι → Action ι → Prop}
    {procs : Finmap fun _ : U32 => Process}
    (hlt : ∀ pid p, procs.lookup pid = some p → pid.toNat < 2 ^ 31) {tr : List (Event ι)}
    {s t : State ι} (h : Run step ok (boot procs) tr s) {i : ι} {uid : String} {pids : List U32}
    (hstep : step s (.proceed i) = some (t, [.resolved i uid pids])) :
    ∃ began time after, Given tr i began time after ∧
      ∀ pid p, s.procs.lookup pid = some p → p.started < began → p.entered < time →
        Names uid p → pid ∈ pids ∨ .unread i (toString pid.toNat) ∈ after := by
  have hinv := Run.scanInv hlt h
  cases step_does hstep with
  | resolve hpc =>
    obtain ⟨began, time, after, -, -, hgiven, hfinds⟩ := hinv.scans _ _ _ _ hpc
    refine ⟨began, time, after, hgiven, fun pid p hp hstarted hentered hn => ?_⟩
    rcases hfinds pid p hp hstarted hentered hn with hin | hin | hin
    · exact .inl hin
    · exact .inr hin
    · exact absurd hin List.not_mem_nil

/-- After both misses one file is read, the other cannot be. -/
def oneUnread : List (Action Bool) := twoMisses ++ [.read false true, .read false false]

theorem scan_finds_older_one_unread :
    ∃ (s t : State Bool) (tr : List (Event Bool)),
      Run step (fun _ _ => True) (boot podProcs) tr s ∧
      step s (.proceed false) = some (t, [.resolved false "a" [7]]) ∧
      .unread false "8" ∈ tr ∧
      ∃ began time after, Given tr false began time after ∧
        ∀ pid p, s.procs.lookup pid = some p → p.started < began → p.entered < time →
          Names "a" p → pid ∈ [7] ∨ .unread false (toString pid.toNat) ∈ after := by
  have h : Run step (fun _ _ => True) (boot podProcs) _ _ :=
    Run.of_isSome oneUnread (allSteps_of_forall _ fun _ _ _ => trivial) (by decide)
  have hstep : step ((exec step (boot podProcs) oneUnread).get (by decide)).1 (.proceed false) =
      some (_, [.resolved false "a" [7]]) := rfl
  refine ⟨_, _, _, h, hstep, by decide, scan_finds_older (fun pid p hp => ?_) h hstep⟩
  have hmem := Finmap.mem_of_lookup_eq_some hp
  rw [podProcs, Finmap.mem_insert, Finmap.mem_singleton] at hmem
  rcases hmem with rfl | rfl <;> decide

end K8sSched.Agent.ProcCache
