import K8sSched.Lib.Stamps
import K8sSched.Cel.Lru

/-! # Hits that overtake each other

A hit draws a tick from `globalClock` and stores it in its entry in two steps,
while other goroutines may hold the read lock too. The entries, the clock and the
readers, with these steps apart; the section that inserts holds the write lock,
so there is no reader when it runs. If a reader stores an older tick over a newer
one, the eviction takes the entry for less recent than it is. As long as that
does not happen, and the clock does not wrap, it deletes the entries whose latest
use is the oldest. -/

namespace K8sSched.Cel.HitOrder

open K8sSched.Bpf.Params (U64)
open K8sSched.Cel.Cache K8sSched.Lib.Runs K8sSched.Lib.Stamps
open K8sSched.Lib.GoMap (lookup_insert_eq_some)

variable {ι P ε : Type} [DecidableEq ι] {capacity : Nat}

/-! ## Steps under the locks -/

/-- A goroutine that holds the read lock and has found its entry; the tick once
it is drawn. -/
structure Reader where
  expr : String
  tick : Option U64
  deriving DecidableEq

structure Shared (ι P : Type) where
  entries : Entries P
  globalClock : U64
  readers : Finmap fun _ : ι => Reader

def newShared : Shared ι P := ⟨∅, 0, ∅⟩

/-- A hit enters, ticks and stores; `insert` is the last section of a call that
has compiled a program. -/
inductive Action (ι P : Type)
  | enter (g : ι) (expr : String)
  | tick (g : ι)
  | store (g : ι)
  | insert (expr : String) (program : Option P) (order : RangeOrder P)

/-- A hit or an insertion is complete. -/
structure Use where
  expr : String
  tick : U64
  deriving DecidableEq

def step (capacity : Nat) (s : Shared ι P) : Action ι P → Option (Shared ι P × List Use)
  | .enter g expr =>
    if g ∈ s.readers then none
    else match s.entries.lookup expr with
      | some _ => some ({ s with readers := s.readers.insert g ⟨expr, none⟩ }, [])
      | none => none
  | .tick g =>
    match s.readers.lookup g with
    | some ⟨expr, none⟩ =>
      some ({ s with
        globalClock := s.globalClock + 1
        readers := s.readers.insert g ⟨expr, some (s.globalClock + 1)⟩ }, [])
    | _ => none
  | .store g =>
    match s.readers.lookup g with
    | some ⟨expr, some tick⟩ =>
      match s.entries.lookup expr with
      | some entry =>
        some ({ s with
          entries := s.entries.insert expr ⟨tick, entry.program⟩
          readers := s.readers.erase g }, [⟨expr, tick⟩])
      | none => none
    | _ => none
  | .insert expr program order =>
    if s.readers = ∅ then
      match s.entries.lookup expr with
      | some entry =>
        some ({ s with
          entries := s.entries.insert expr ⟨s.globalClock + 1, entry.program⟩
          globalClock := s.globalClock + 1 }, [⟨expr, s.globalClock + 1⟩])
      | none =>
        some ({ s with
          entries := (evictIfNeeded order capacity s.entries).insert expr
            ⟨s.globalClock + 1, program⟩
          globalClock := s.globalClock + 1 }, [⟨expr, s.globalClock + 1⟩])
    else none

inductive Does (capacity : Nat) (s : Shared ι P) :
    Action ι P → Shared ι P → List Use → Prop
  | enter {g : ι} {expr : String} {entry : Entry P} (hg : g ∉ s.readers)
      (hentry : s.entries.lookup expr = some entry) :
      Does capacity s (.enter g expr)
        { s with readers := s.readers.insert g ⟨expr, none⟩ } []
  | tick {g : ι} {expr : String} (hg : s.readers.lookup g = some ⟨expr, none⟩) :
      Does capacity s (.tick g)
        { s with
          globalClock := s.globalClock + 1
          readers := s.readers.insert g ⟨expr, some (s.globalClock + 1)⟩ } []
  | store {g : ι} {expr : String} {tick : U64} {entry : Entry P}
      (hg : s.readers.lookup g = some ⟨expr, some tick⟩)
      (hentry : s.entries.lookup expr = some entry) :
      Does capacity s (.store g)
        { s with
          entries := s.entries.insert expr ⟨tick, entry.program⟩
          readers := s.readers.erase g } [⟨expr, tick⟩]
  | again {expr : String} {program : Option P} {order : RangeOrder P} {entry : Entry P}
      (hreaders : s.readers = ∅) (hentry : s.entries.lookup expr = some entry) :
      Does capacity s (.insert expr program order)
        { s with
          entries := s.entries.insert expr ⟨s.globalClock + 1, entry.program⟩
          globalClock := s.globalClock + 1 } [⟨expr, s.globalClock + 1⟩]
  | insert {expr : String} {program : Option P} {order : RangeOrder P}
      (hreaders : s.readers = ∅) (hentry : s.entries.lookup expr = none) :
      Does capacity s (.insert expr program order)
        { s with
          entries := (evictIfNeeded order capacity s.entries).insert expr
            ⟨s.globalClock + 1, program⟩
          globalClock := s.globalClock + 1 } [⟨expr, s.globalClock + 1⟩]

theorem step_does {s t : Shared ι P} {a : Action ι P} {es : List Use}
    (h : step capacity s a = some (t, es)) : Does capacity s a t es := by
  cases a with
  | enter g expr =>
    simp only [step] at h
    split at h
    · cases h
    · next hg =>
      split at h
      · next entry hentry => cases h; exact .enter hg hentry
      · cases h
  | tick g =>
    simp only [step] at h
    split at h
    · next expr hg => cases h; exact .tick hg
    · cases h
  | store g =>
    simp only [step] at h
    split at h
    · next expr tick hg =>
      split at h
      · next entry hentry => cases h; exact .store hg hentry
      · cases h
    · cases h
  | insert expr program order =>
    simp only [step] at h
    split at h
    · next hreaders =>
      split at h
      · next entry hentry => cases h; exact .again hreaders hentry
      · next hentry => cases h; exact .insert hreaders hentry
    · cases h

/-! ## The sections of the cache as such steps -/

section Sections

variable {compile : String → Except ε P}

/-- The shared data of the cache while nobody is inside a section. -/
def shared (s : State ι P ε) : Shared ι P := ⟨s.entries, s.globalClock, ∅⟩

theorem erase_reader (g : ι) (r r' : Reader) :
    (((∅ : Finmap fun _ : ι => Reader).insert g r).insert g r').erase g = ∅ := by
  refine Finmap.ext_lookup fun g' => ?_
  by_cases hg : g' = g
  · rw [hg, Finmap.lookup_erase, Finmap.lookup_empty]
  · rw [Finmap.lookup_erase_ne hg, Finmap.lookup_insert_of_ne _ hg,
      Finmap.lookup_insert_of_ne _ hg]

/-- The three steps of a hit in a row. -/
theorem exec_hit (capacity : Nat) {s : Shared ι P} (hreaders : s.readers = ∅) (g : ι)
    {expr : String} {entry : Entry P} (hentry : s.entries.lookup expr = some entry) :
    exec (step capacity) s [.enter g expr, .tick g, .store g] =
      some ({ s with
        entries := s.entries.insert expr ⟨s.globalClock + 1, entry.program⟩
        globalClock := s.globalClock + 1 }, [⟨expr, s.globalClock + 1⟩]) := by
  let s₁ : Shared ι P := { s with readers := s.readers.insert g ⟨expr, none⟩ }
  let s₂ : Shared ι P := { s₁ with
    globalClock := s.globalClock + 1
    readers := s₁.readers.insert g ⟨expr, some (s.globalClock + 1)⟩ }
  have h₁ : step capacity s (.enter g expr) = some (s₁, []) := by
    have hg : g ∉ s.readers := by
      rw [hreaders]
      exact Finmap.notMem_empty
    simp only [step, if_neg hg, hentry]
    rfl
  have h₂ : step capacity s₁ (.tick g) = some (s₂, []) := by
    simp only [step, s₁, Finmap.lookup_insert]
    rfl
  have h₃ : step capacity s₂ (.store g) = some ({ s₂ with
      entries := s.entries.insert expr ⟨s.globalClock + 1, entry.program⟩
      readers := s₂.readers.erase g }, [⟨expr, s.globalClock + 1⟩]) := by
    have hentry₂ : s₂.entries.lookup expr = some entry := hentry
    simp only [step, show s₂.readers.lookup g = some _ from Finmap.lookup_insert _, hentry₂]
    rfl
  rw [exec_cons_of_eq h₁ (exec_cons_of_eq h₂ (exec_cons_of_eq h₃ rfl))]
  simp only [s₂, s₁, hreaders, erase_reader]
  rfl

/-- Every step of the cache is a run of the finer steps on its shared data. -/
theorem exec_shared {s t : State ι P ε} {a : Cache.Action ι P} {es : List (Event ι P ε)}
    (hs : Cache.Does compile capacity s a t es) :
    ∃ as uses, exec (step capacity) (shared s) as = some (shared t, uses) := by
  cases hs with
  | @hit g expr entry hpc hentry => exact ⟨_, _, exec_hit capacity rfl g hentry⟩
  | @again g expr call order entry hpc herr hentry =>
    refine ⟨[.insert expr none order], [⟨expr, s.globalClock + 1⟩], ?_⟩
    simp [exec, step, shared, hentry, State.store, State.goto]
  | @insert g expr call order hpc herr hentry =>
    refine ⟨[.insert expr (s.calls call).result.1 order], [⟨expr, s.globalClock + 1⟩], ?_⟩
    simp [exec, step, shared, hentry, State.store, State.goto]
  | _ => exact ⟨[], [], rfl⟩

end Sections

/-! ## Latest uses -/

/-- The latest tick of a completed use of the expression. -/
def latest (expr : String) (log : List Use) : Nat :=
  log.foldl (fun n u => if u.expr = expr then max n u.tick.toNat else n) 0

theorem latest_concat (expr : String) (log : List Use) (u : Use) :
    latest expr (log ++ [u]) =
      if u.expr = expr then max (latest expr log) u.tick.toNat else latest expr log := by
  rw [latest, List.foldl_append]
  rfl

/-- What an insertion evicts was used before everything that stays. -/
def Respects (capacity : Nat) (x : Shared ι P × List Use) : Action ι P → Prop
  | .insert expr _ order => expr ∉ x.1.entries → ∀ k k', k ∈ x.1.entries →
      k ∉ evictIfNeeded order capacity x.1.entries →
      k' ∈ evictIfNeeded order capacity x.1.entries → latest k x.2 < latest k' x.2
  | _ => True

/-- The clock does not wrap, and no reader stores a tick over a newer one. -/
def InOrder (x : Shared ι P × List Use) : Action ι P → Prop
  | .enter _ _ => True
  | .tick _ | .insert _ _ _ => x.1.globalClock.toNat + 1 < 2 ^ 64
  | .store g =>
    match x.1.readers.lookup g with
    | some ⟨expr, some tick⟩ => ∀ entry ∈ x.1.entries.lookup expr, entry.clock < tick
    | _ => True

/-! ## Ticks in entries and in the hands of readers -/

inductive Place (ι : Type)
  | entry (expr : String)
  | reader (g : ι)

def tickAt (s : Shared ι P) : Place ι → Option Nat
  | .entry expr => (s.entries.lookup expr).map fun e => e.clock.toNat
  | .reader g => (s.readers.lookup g).bind fun r => r.tick.map BitVec.toNat

structure Inv (x : Shared ι P × List Use) : Prop where
  distinct : Distinct (tickAt x.1) x.1.globalClock.toNat
  latest_le : ∀ expr, latest expr x.2 ≤ x.1.globalClock.toNat
  latest_eq : ∀ expr entry, x.1.entries.lookup expr = some entry →
    latest expr x.2 = entry.clock.toNat

section Inv

variable {s t : Shared ι P} {log es : List Use} {a : Action ι P}

theorem toNat_tick {clock : U64} (h : clock.toNat + 1 < 2 ^ 64) :
    (clock + 1).toNat = clock.toNat + 1 := by
  rw [BitVec.toNat_add]
  exact Nat.mod_eq_of_lt h

/-- Entries with their clocks written anew by a use that is the latest of its
expression. -/
theorem Inv.latest_insert (h : Inv (s, log)) {kept : Entries P}
    (hkept : ∀ expr entry, kept.lookup expr = some entry → s.entries.lookup expr = some entry)
    {expr : String} {tick : U64} (hlatest : latest expr log ≤ tick.toNat) (program : Option P) :
    ∀ k entry, (kept.insert expr ⟨tick, program⟩).lookup k = some entry →
      latest k (log ++ [⟨expr, tick⟩]) = entry.clock.toNat := by
  intro k entry he
  rw [latest_concat]
  rcases lookup_insert_eq_some.mp he with ⟨rfl, rfl⟩ | ⟨hk, he⟩
  · rw [if_pos rfl]
    exact Nat.max_eq_right hlatest
  · rw [if_neg (Ne.symm hk)]
    exact h.latest_eq k entry (hkept k entry he)

theorem tickAt_entry_insert {entries : Entries P} {clock : U64}
    {readers : Finmap fun _ : ι => Reader} {expr k : String} {entry : Entry P} (hk : k ≠ expr) :
    tickAt (⟨entries.insert expr entry, clock, readers⟩ : Shared ι P) (.entry k) =
      (entries.lookup k).map fun e => e.clock.toNat := by
  simp only [tickAt, Finmap.lookup_insert_of_ne _ hk]

/-- A new tick in the entry of an expression. -/
theorem Inv.written (h : Inv (s, log)) (hwrap : s.globalClock.toNat + 1 < 2 ^ 64)
    {kept : Entries P}
    (hkept : ∀ expr entry, kept.lookup expr = some entry → s.entries.lookup expr = some entry)
    (expr : String) (program : Option P) :
    Inv ({ s with
      entries := kept.insert expr ⟨s.globalClock + 1, program⟩
      globalClock := s.globalClock + 1 }, log ++ [⟨expr, s.globalClock + 1⟩]) := by
  have hclock : (s.globalClock + 1).toNat = s.globalClock.toNat + 1 := toNat_tick hwrap
  have hlatest : ∀ k, latest k log ≤ (s.globalClock + 1).toNat := fun k =>
    (h.latest_le k).trans (hclock ▸ Nat.le_succ _)
  refine ⟨?_, fun k => ?_, h.latest_insert hkept (hlatest expr) _⟩
  · change Distinct _ (s.globalClock + 1).toNat
    rw [hclock]
    refine h.distinct.draw (.entry expr) (fun n hn => ?_) fun p hp n hn => ?_
    · simp only [tickAt, Finmap.lookup_insert, Option.map_some, Option.some.injEq] at hn
      rw [← hn, hclock]
    · cases p with
      | entry k =>
        rw [tickAt_entry_insert fun heq => hp (by rw [heq])] at hn
        obtain ⟨e, he, hn⟩ := Option.map_eq_some_iff.mp hn
        simp only [tickAt, hkept k e he, Option.map_some, hn]
      | reader g => exact hn
  · change latest k (log ++ [_]) ≤ (s.globalClock + 1).toNat
    rw [latest_concat]
    split
    · exact max_le (hlatest k) le_rfl
    · exact hlatest k

/-- A reader that enters has no tick yet. -/
theorem Inv.enter (h : Inv (s, log)) (g : ι) (expr : String) :
    Inv ({ s with readers := s.readers.insert g ⟨expr, none⟩ }, log) := by
  refine ⟨h.distinct.drop fun p n hp => ?_, h.latest_le, h.latest_eq⟩
  cases p with
  | entry k => exact hp
  | reader g' =>
    simp only [tickAt] at hp ⊢
    by_cases hg' : g' = g
    · rw [hg', Finmap.lookup_insert] at hp
      cases hp
    · rwa [Finmap.lookup_insert_of_ne _ hg'] at hp

/-- A new tick in the hands of a reader. -/
theorem Inv.tick (h : Inv (s, log)) (hwrap : s.globalClock.toNat + 1 < 2 ^ 64)
    (g : ι) (expr : String) :
    Inv ({ s with
      globalClock := s.globalClock + 1
      readers := s.readers.insert g ⟨expr, some (s.globalClock + 1)⟩ }, log) := by
  have hclock : (s.globalClock + 1).toNat = s.globalClock.toNat + 1 := toNat_tick hwrap
  refine ⟨?_, fun k => (h.latest_le k).trans (hclock ▸ Nat.le_succ _), h.latest_eq⟩
  change Distinct _ (s.globalClock + 1).toNat
  rw [hclock]
  refine h.distinct.draw (.reader g) (fun n hn => ?_) fun p hp n hn => ?_
  · simp only [tickAt, Finmap.lookup_insert, Option.bind_some, Option.map_some,
      Option.some.injEq] at hn
    rw [← hn, hclock]
  · cases p with
    | entry k => exact hn
    | reader g' =>
      have hg' : g' ≠ g := fun heq => hp (by rw [heq])
      simpa only [tickAt, Finmap.lookup_insert_of_ne _ hg'] using hn

/-- A reader's tick moves into the entry. -/
theorem Inv.store (h : Inv (s, log)) {g : ι} {expr : String} {tick : U64} {entry : Entry P}
    (hg : s.readers.lookup g = some ⟨expr, some tick⟩)
    (hentry : s.entries.lookup expr = some entry) (hnewer : entry.clock < tick) :
    Inv ({ s with
      entries := s.entries.insert expr ⟨tick, entry.program⟩
      readers := s.readers.erase g }, log ++ [⟨expr, tick⟩]) := by
  have hread : tickAt s (.reader g) = some tick.toNat := by
    simp only [tickAt, hg, Option.bind_some, Option.map_some]
  have hlatest : latest expr log ≤ tick.toNat := by
    rw [h.latest_eq expr entry hentry]
    exact (BitVec.lt_def.mp hnewer).le
  refine ⟨?_, fun k => ?_, h.latest_insert (fun _ _ he => he) hlatest _⟩
  · refine h.distinct.move (.reader g) (.entry expr) ?_ (fun n hn => ?_) fun p hp n hn => ?_
    · simp only [tickAt, Finmap.lookup_erase, Option.bind_none]
    · rw [hread, ← hn]
      simp only [tickAt, Finmap.lookup_insert, Option.map_some]
    · cases p with
      | entry k =>
        rw [tickAt_entry_insert fun heq => hp (by rw [heq])] at hn
        exact hn
      | reader g' =>
        simp only [tickAt] at hn ⊢
        by_cases hg' : g' = g
        · rw [hg', Finmap.lookup_erase] at hn
          cases hn
        · rwa [Finmap.lookup_erase_ne hg'] at hn
  · rw [latest_concat]
    split
    · exact max_le (h.latest_le k) (h.distinct.le _ _ hread)
    · exact h.latest_le k

theorem Inv.step (h : Inv (s, log)) (hok : InOrder (s, log) a) (hs : Does capacity s a t es) :
    Inv (t, log ++ es) := by
  cases hs with
  | enter =>
    rw [List.append_nil]
    exact h.enter _ _
  | tick =>
    rw [List.append_nil]
    exact h.tick hok _ _
  | store hg hentry =>
    simp only [InOrder, hg, hentry, Option.mem_some_iff, forall_eq'] at hok
    exact h.store hg hentry hok
  | again => exact h.written hok (fun _ _ he => he) _ _
  | insert => exact h.written hok (fun _ _ he => evict_lookup he) _ _

/-- The clocks are the latest ticks, and no two are equal. -/
theorem Inv.respects (h : Inv (s, log)) (a : Action ι P) : Respects capacity (s, log) a := by
  cases a with
  | insert expr program order =>
    intro _ k k' hk hgone hstays
    obtain ⟨e, he⟩ := Finmap.mem_iff.mp hk
    obtain ⟨e', hkept⟩ := Finmap.mem_iff.mp hstays
    have he' := evict_lookup hkept
    have hle := BitVec.le_def.mp (evict_le he hgone hkept)
    have hne : e.clock.toNat ≠ e'.clock.toNat := by
      intro heq
      have hplace := h.distinct.unique (.entry k) (.entry k') e.clock.toNat
        (by simp only [tickAt, he, Option.map_some])
        (by simp only [tickAt, he', Option.map_some, heq])
      cases hplace
      exact hgone hstays
    rw [h.latest_eq k e he, h.latest_eq k' e' he']
    omega
  | _ => trivial

end Inv

/-- For any number of readers and any order of their steps: as long as the clock
does not wrap and no reader stores a tick over a newer one, whatever is evicted
was used before everything that stays. -/
theorem evicts_least_recent (capacity : Nat) {as : List (Action ι P)}
    (h : AllSteps (logged (step capacity)) InOrder ((newShared : Shared ι P), []) as) :
    AllSteps (logged (step capacity)) (Respects capacity) ((newShared : Shared ι P), []) as := by
  refine AllSteps.imp (I := Inv) ?_ (fun x a hI _ => hI.respects a) ⟨⟨?_, ?_⟩, ?_, ?_⟩ h
  · rintro ⟨s, log⟩ a ⟨t, log'⟩ es hI hok hs
    obtain ⟨hs, rfl⟩ := logged_eq_some hs
    exact hI.step hok (step_does hs)
  · intro p n hp
    cases p <;> cases hp
  · intro p q n hp
    cases p <;> cases hp
  · exact fun _ => Nat.zero_le _
  · intro k e he
    cases he

/-! ## Two entries and two readers -/

/-- An insertion into a cache that is not full. -/
theorem step_insert_room {s : Shared ι P} (hreaders : s.readers = ∅) {expr : String}
    (hentry : s.entries.lookup expr = none) (hroom : s.entries.keys.card < capacity)
    (program : Option P) (order : RangeOrder P) :
    step capacity s (.insert expr program order) = some ({ s with
      entries := s.entries.insert expr ⟨s.globalClock + 1, program⟩
      globalClock := s.globalClock + 1 }, [⟨expr, s.globalClock + 1⟩]) := by
  simp only [step, if_pos hreaders, hentry]
  rw [evictIfNeeded, if_neg (Nat.not_le.mpr hroom)]

open SingleFlight (anyOrder)

/-- A cache of capacity two after its first two insertions. -/
def twoEntries : Shared Bool String :=
  ⟨((∅ : Entries String).insert "e" ⟨1, some "e"⟩).insert "f" ⟨2, some "f"⟩, 2, ∅⟩

noncomputable def inserts : List (Action Bool String) :=
  [.insert "e" (some "e") (anyOrder String), .insert "f" (some "f") (anyOrder String)]

def oneEntry : Shared Bool String := ⟨(∅ : Entries String).insert "e" ⟨1, some "e"⟩, 1, ∅⟩

theorem insert_first : step 2 newShared (.insert "e" (some "e") (anyOrder String)) =
    some (oneEntry, [⟨"e", 1⟩]) :=
  step_insert_room rfl rfl (by decide) _ _

theorem insert_second : step 2 oneEntry (.insert "f" (some "f") (anyOrder String)) =
    some (twoEntries, [⟨"f", 2⟩]) :=
  step_insert_room rfl rfl (by decide) _ _

instance (x : Shared ι P × List Use) (a : Action ι P) : Decidable (InOrder x a) := by
  unfold InOrder
  split
  · infer_instance
  · infer_instance
  · infer_instance
  · split
    · infer_instance
    · infer_instance

/-- Each reader stores its tick before the next one draws its own. -/
theorem evicts_least_recent_apart :
    AllSteps (logged (step 2)) (Respects 2) (newShared, [])
      (inserts ++ [.enter true "e", .enter false "e", .tick true, .store true, .tick false,
        .store false, .insert "g" (some "g") (anyOrder String)]) := by
  refine evicts_least_recent 2 ?_
  refine allSteps_cons_of_eq (logged_of_eq [] insert_first) (by decide) ?_
  exact allSteps_cons_of_eq (logged_of_eq _ insert_second) (by decide) (by decide)

/-- A reader of `e` draws 3; `f` is used at 4 and `e` at 5; then the reader stores
its 3. -/
def overtaking : List (Action Bool String) :=
  [.enter true "e", .tick true, .enter false "f", .tick false, .store false, .enter false "e",
    .tick false, .store false, .store true]

def overtaken : Shared Bool String :=
  ⟨((∅ : Entries String).insert "f" ⟨4, some "f"⟩).insert "e" ⟨3, some "e"⟩, 5, ∅⟩

theorem exec_overtaking : exec (step 2) twoEntries overtaking =
    some (overtaken, [⟨"f", 4⟩, ⟨"e", 5⟩, ⟨"e", 3⟩]) := rfl

/-- The next insertion evicts the entry that was used last. -/
theorem overtaken_hit :
    ∃ s log, exec (step 2) newShared (inserts ++ overtaking) = some (s, log) ∧
      s.readers = ∅ ∧ "e" ∈ s.entries ∧ "e" ∉ evictIfNeeded (anyOrder String) 2 s.entries ∧
      "f" ∈ evictIfNeeded (anyOrder String) 2 s.entries ∧
      latest "e" log = 5 ∧ latest "f" log = 4 := by
  -- the clocks are 3 for `e` and 4 for `f`, as after a use of `e` and then one of `f`
  have hrep := ((Lru.represents_empty 2).store (by decide) "e" (some "e")).store (by decide) "f"
    (some "f")
  have hevict := hrep.evict (by decide) (by decide) (show 1 ≤ 2 by decide) (by decide)
    (anyOrder String)
  have hentries : overtaken.entries =
      ((∅ : Entries String).insert "e" ⟨3, some "e"⟩).insert "f" ⟨4, some "f"⟩ := by
    rw [Finmap.insert_insert_of_ne _ (by decide : "e" ≠ "f")]
    rfl
  refine ⟨overtaken, _, exec_cons_of_eq insert_first (exec_cons_of_eq insert_second
    exec_overtaking), rfl, by decide, ?_, ?_, by decide, by decide⟩
  · rw [hentries]
    exact mt (hevict.mem "e").mp (by decide)
  · rw [hentries]
    exact (hevict.mem "f").mpr (by decide)

end K8sSched.Cel.HitOrder
