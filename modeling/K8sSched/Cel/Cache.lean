import K8sSched.Lib.GoMap
import K8sSched.Bpf.Params

/-! # The cache of compiled CEL programs

`getOrCompile` and `evictIfNeeded` of `internal/cel/cache.go`, for any number of
goroutines of a type `ι`. A step is one section under the lock, the compilation
of an expression, or the closing of a `done` channel. Programs are values of a
type `P`, the errors of the compiler of a type `ε`; a nil program is `none`. -/

namespace K8sSched.Cel.Cache

open K8sSched.Bpf.Params (U64)
open K8sSched.Lib.GoMap (lookup_erase_eq_some)

/-- `cacheEntry`. -/
structure Entry (P : Type) where
  clock : U64
  program : Option P
  deriving DecidableEq

abbrev Entries (P : Type) := Finmap fun _ : String => Entry P

/-! ## Eviction -/

section Evict

variable {P : Type}

/-- An order in which `range` may visit the keys of a map. -/
structure RangeOrder (P : Type) where
  keys : Entries P → List String
  mem_keys : ∀ entries k, k ∈ keys entries ↔ k ∈ entries
  nodup_keys : ∀ entries, (keys entries).Nodup

/-- One turn of the loop: the oldest key so far and its clock. -/
def older (entries : Entries P) (oldest : String × U64) (k : String) : String × U64 :=
  match entries.lookup k with
  | none => oldest
  | some e => if e.clock < oldest.2 then (k, e.clock) else oldest

/-- The key the loop over all entries finds; empty if it finds none. -/
def oldestKey (order : RangeOrder P) (entries : Entries P) : String :=
  ((order.keys entries).foldl (older entries) ("", BitVec.allOnes 64)).1

theorem foldl_older (entries : Entries P) (l : List String) (oldest : String × U64) :
    (l.foldl (older entries) oldest = oldest ∧
        ∀ k ∈ l, ∀ e, entries.lookup k = some e → ¬ e.clock < oldest.2) ∨
      ∃ k ∈ l, ∃ e, entries.lookup k = some e ∧ e.clock < oldest.2 ∧
        l.foldl (older entries) oldest = (k, e.clock) := by
  induction l generalizing oldest with
  | nil => exact .inl ⟨rfl, fun k hk => by cases hk⟩
  | cons k l ih =>
    have hcons : (k :: l).foldl (older entries) oldest =
        l.foldl (older entries) (older entries oldest k) := rfl
    rw [hcons]
    by_cases hk : ∃ e, entries.lookup k = some e ∧ e.clock < oldest.2
    · -- the key replaces the oldest so far
      obtain ⟨e, he, hlt⟩ := hk
      have holder : older entries oldest k = (k, e.clock) := by
        simp [older, he, hlt]
      rw [holder]
      rcases ih (k, e.clock) with ⟨heq, -⟩ | ⟨k', hk', e', he', hlt', heq⟩
      · exact .inr ⟨k, List.mem_cons_self, e, he, hlt, heq⟩
      · exact .inr ⟨k', List.mem_cons_of_mem _ hk', e', he',
          BitVec.lt_def.mpr ((BitVec.lt_def.mp hlt').trans (BitVec.lt_def.mp hlt)), heq⟩
    · have holder : older entries oldest k = oldest := by
        unfold older
        split
        · rfl
        · next e he => exact if_neg fun hlt => hk ⟨e, he, hlt⟩
      rw [holder]
      rcases ih oldest with ⟨heq, hall⟩ | ⟨k', hk', e', he', hlt', heq⟩
      · refine .inl ⟨heq, fun k' hk' e he hlt => ?_⟩
        rcases List.mem_cons.mp hk' with rfl | hk'
        · exact hk ⟨e, he, hlt⟩
        · exact hall k' hk' e he hlt
      · exact .inr ⟨k', List.mem_cons_of_mem _ hk', e', he', hlt', heq⟩

/-- No entry the loop has seen is older than the one it keeps. -/
theorem foldl_older_le (entries : Entries P) (l : List String) (oldest : String × U64) :
    (l.foldl (older entries) oldest).2 ≤ oldest.2 ∧
      ∀ k ∈ l, ∀ e, entries.lookup k = some e →
        (l.foldl (older entries) oldest).2 ≤ e.clock := by
  induction l generalizing oldest with
  | nil => exact ⟨BitVec.le_refl _, fun k hk => by cases hk⟩
  | cons k l ih =>
    have hone : (older entries oldest k).2 ≤ oldest.2 ∧
        ∀ e, entries.lookup k = some e → (older entries oldest k).2 ≤ e.clock := by
      unfold older
      split
      · next hnone => exact ⟨BitVec.le_refl _, fun e he => by rw [hnone] at he; cases he⟩
      · next entry hentry =>
        have hself : ∀ e, entries.lookup k = some e → entry = e := fun e he =>
          Option.some.inj (hentry.symm.trans he)
        split
        · next hlt => exact ⟨BitVec.le_of_lt hlt, fun e he => hself e he ▸ BitVec.le_refl _⟩
        · next hge => exact ⟨BitVec.le_refl _, fun e he => hself e he ▸ BitVec.not_lt.mp hge⟩
    rw [List.foldl_cons]
    obtain ⟨hle, hall⟩ := ih (older entries oldest k)
    refine ⟨BitVec.le_trans hle hone.1, fun k' hk' e he => ?_⟩
    rcases List.mem_cons.mp hk' with rfl | hk'
    · exact BitVec.le_trans hle (hone.2 e he)
    · exact hall k' hk' e he

theorem oldestKey_mem {order : RangeOrder P} {entries : Entries P}
    (h : oldestKey order entries ≠ "") : oldestKey order entries ∈ entries := by
  rcases foldl_older entries (order.keys entries) ("", BitVec.allOnes 64) with
    ⟨heq, -⟩ | ⟨k, hk, e, -, -, heq⟩
  · exact absurd (congrArg Prod.fst heq) h
  · rw [show oldestKey order entries = k from congrArg Prod.fst heq]
    exact (order.mem_keys entries k).mp hk

/-- Some entry has a clock below the largest there is. -/
def HasOlder (entries : Entries P) : Prop :=
  ∃ k e, entries.lookup k = some e ∧ e.clock ≠ BitVec.allOnes 64

/-- The loop finds a key if one has a clock below the start value. -/
theorem oldestKey_ne_iff {order : RangeOrder P} {entries : Entries P} (hempty : "" ∉ entries) :
    oldestKey order entries ≠ "" ↔ HasOlder entries := by
  have hlt : ∀ x : U64, x < BitVec.allOnes 64 ↔ x ≠ BitVec.allOnes 64 := by
    intro x
    rw [ne_eq, ← BitVec.toNat_inj, BitVec.lt_def, BitVec.toNat_allOnes]
    have := x.isLt
    omega
  rcases foldl_older entries (order.keys entries) ("", BitVec.allOnes 64) with
    ⟨heq, hall⟩ | ⟨k, hk, e, he, hclock, heq⟩
  · refine iff_of_false (not_not.mpr (congrArg Prod.fst heq)) ?_
    rintro ⟨k, e, he, hne⟩
    have hk : k ∈ order.keys entries :=
      (order.mem_keys entries k).mpr (Finmap.mem_iff.mpr ⟨e, he⟩)
    exact hall k hk e he ((hlt _).mpr hne)
  · refine iff_of_true ?_ ⟨k, e, he, (hlt _).mp hclock⟩
    rw [show oldestKey order entries = k from congrArg Prod.fst heq]
    rintro rfl
    exact hempty ((order.mem_keys entries _).mp hk)

/-- The key the loop finds has the least clock. -/
theorem oldestKey_le {order : RangeOrder P} {entries : Entries P}
    (h : oldestKey order entries ≠ "") {e : Entry P}
    (he : entries.lookup (oldestKey order entries) = some e) {k : String} {e' : Entry P}
    (he' : entries.lookup k = some e') : e.clock ≤ e'.clock := by
  have hk : k ∈ order.keys entries :=
    (order.mem_keys entries k).mpr (Finmap.mem_iff.mpr ⟨e', he'⟩)
  have hle := (foldl_older_le entries (order.keys entries) ("", BitVec.allOnes 64)).2 k hk e' he'
  rcases foldl_older entries (order.keys entries) ("", BitVec.allOnes 64) with
    ⟨heq, -⟩ | ⟨k₀, -, e₀, he₀, -, heq⟩
  · exact absurd (congrArg Prod.fst heq) h
  · rw [show oldestKey order entries = k₀ from congrArg Prod.fst heq, he₀] at he
    cases he
    rwa [heq] at hle

theorem card_erase_lt {entries : Entries P} {k : String} (h : k ∈ entries) :
    (entries.erase k).keys.card < entries.keys.card := by
  rw [Finmap.keys_erase]
  exact Finset.card_erase_lt_of_mem (Finmap.mem_keys.mpr h)

theorem card_insert (entries : Entries P) (k : String) (e : Entry P) :
    (entries.insert k e).keys.card =
      if k ∈ entries then entries.keys.card else entries.keys.card + 1 := by
  have hkeys : (entries.insert k e).keys = insert k entries.keys := by
    ext k'
    simp [Finmap.mem_keys, Finmap.mem_insert]
  rw [hkeys, Finset.card_insert_eq_ite]
  simp only [Finmap.mem_keys]

def evictIfNeeded (order : RangeOrder P) (capacity : Nat) (entries : Entries P) : Entries P :=
  if capacity ≤ entries.keys.card then
    if _h : oldestKey order entries = "" then entries
    else evictIfNeeded order capacity (entries.erase (oldestKey order entries))
  else entries
termination_by entries.keys.card
decreasing_by exact card_erase_lt (oldestKey_mem _h)

/-- Eviction only deletes. -/
theorem evict_lookup {order : RangeOrder P} {capacity : Nat} {entries : Entries P} {k : String}
    {e : Entry P} (h : (evictIfNeeded order capacity entries).lookup k = some e) :
    entries.lookup k = some e := by
  fun_induction evictIfNeeded order capacity entries with
  | case1 => exact h
  | case2 entries hcard hne ih =>
    exact (lookup_erase_eq_some.mp (ih h)).2
  | case3 => exact h

/-- What is deleted is not newer than what stays. -/
theorem evict_le {order : RangeOrder P} {capacity : Nat} {entries : Entries P} {k k' : String}
    {e e' : Entry P} (he : entries.lookup k = some e)
    (hgone : k ∉ evictIfNeeded order capacity entries)
    (hkept : (evictIfNeeded order capacity entries).lookup k' = some e') :
    e.clock ≤ e'.clock := by
  fun_induction evictIfNeeded order capacity entries with
  | case1 => exact (hgone (Finmap.mem_iff.mpr ⟨e, he⟩)).elim
  | case2 entries hcard hne ih =>
    by_cases hk : k = oldestKey order entries
    · rw [hk] at he
      exact oldestKey_le hne he (lookup_erase_eq_some.mp (evict_lookup hkept)).2
    · exact ih (lookup_erase_eq_some.mpr ⟨hk, he⟩) hgone hkept
  | case3 => exact (hgone (Finmap.mem_iff.mpr ⟨e, he⟩)).elim

/-- Entries with the largest clock are not found. -/
theorem evict_of_not_hasOlder {order : RangeOrder P} {capacity : Nat} {entries : Entries P}
    (hempty : "" ∉ entries) (h : ¬ HasOlder entries) :
    evictIfNeeded order capacity entries = entries := by
  rw [evictIfNeeded]
  split
  · exact dif_pos (not_not.mp (mt (oldestKey_ne_iff hempty).mp h))
  · rfl

/-- Room for one more is made unless the cache is full of entries with the
largest clock. -/
theorem evict_card_lt_iff {order : RangeOrder P} {capacity : Nat} {entries : Entries P}
    (hempty : "" ∉ entries) (hcard : entries.keys.card ≤ capacity) :
    (evictIfNeeded order capacity entries).keys.card < capacity ↔
      entries.keys.card < capacity ∨ HasOlder entries := by
  rw [evictIfNeeded]
  split
  · next hfull =>
    split
    · next hnone =>
      have hno : ¬ HasOlder entries := fun h => (oldestKey_ne_iff hempty).mpr h hnone
      exact iff_of_false (by omega) (not_or.mpr ⟨by omega, hno⟩)
    · next hsome =>
      have hlt := card_erase_lt (oldestKey_mem hsome)
      rw [evictIfNeeded, if_neg (by omega)]
      exact iff_of_true (by omega) (.inr ((oldestKey_ne_iff hempty).mp hsome))
  · next hroom => exact iff_of_true (by omega) (.inl (by omega))

end Evict

/-! ## Goroutines -/

/-- `fmt.Errorf("compile %q: %w", expr, err)`. -/
structure CompileError (ε : Type) where
  expr : String
  err : ε
  deriving DecidableEq

/-- The two values `getOrCompile` returns. -/
abbrev Result (P ε : Type) := Option P × Option (CompileError ε)

/-- What comes of compiling an expression. -/
def resultOf {P ε : Type} (compile : String → Except ε P) (expr : String) : Result P ε :=
  match compile expr with
  | .ok prog => (some prog, none)
  | .error err => (none, some ⟨expr, err⟩)

/-- `compileCall`; `closed` says that the channel `done` is closed. -/
structure CompileCall (P ε : Type) where
  closed : Bool := false
  result : Result P ε := (none, none)

/-- Where a goroutine is in `getOrCompile`: outside, before the section under
the read lock, before the first one under the write lock, receiving from a call's
channel, and with a call of its own compiling, closing the channel, or before
the last section. -/
inductive PC
  | idle
  | lookup (expr : String)
  | slow (expr : String)
  | wait (expr : String) (call : Nat)
  | compile (expr : String) (call : Nat)
  | close (expr : String) (call : Nat)
  | publish (expr : String) (call : Nat)
  deriving DecidableEq

/-- The cache, the calls allocated so far, the clock and the goroutines. -/
structure State (ι P ε : Type) where
  entries : Entries P
  inflight : Finmap fun _ : String => Nat
  calls : Nat → CompileCall P ε
  next : Nat
  globalClock : U64
  pc : ι → PC

def newCache {ι P ε : Type} : State ι P ε := ⟨∅, ∅, fun _ => {}, 0, 0, fun _ => .idle⟩

/-- Each step is taken by a goroutine; the eviction in the last section ranges
over the entries in some order. -/
inductive Action (ι P : Type)
  | call (g : ι) (expr : String)
  | lookup (g : ι)
  | lock (g : ι)
  | receive (g : ι)
  | compile (g : ι)
  | close (g : ι)
  | publish (g : ι) (order : RangeOrder P)

inductive Event (ι P ε : Type)
  | returned (g : ι) (expr : String) (result : Result P ε)

section Step

variable {ι P ε : Type} [DecidableEq ι]

def State.goto (s : State ι P ε) (g : ι) (pc : PC) : State ι P ε :=
  { s with pc := Function.update s.pc g pc }

def State.setCall (s : State ι P ε) (id : Nat) (call : CompileCall P ε) : State ι P ε :=
  { s with calls := Function.update s.calls id call }

/-- The entry of an expression is written with a new clock. -/
def State.store (s : State ι P ε) (entries : Entries P) (expr : String) (program : Option P) :
    State ι P ε :=
  { s with
    globalClock := s.globalClock + 1
    entries := entries.insert expr ⟨s.globalClock + 1, program⟩ }

def step (compile : String → Except ε P) (capacity : Nat) (s : State ι P ε) :
    Action ι P → Option (State ι P ε × List (Event ι P ε))
  | .call g expr =>
    match s.pc g with
    | .idle => some (s.goto g (.lookup expr), [])
    | _ => none
  | .lookup g =>
    match s.pc g with
    | .lookup expr =>
      match s.entries.lookup expr with
      | some entry =>
        some ((s.store s.entries expr entry.program).goto g .idle,
          [.returned g expr (entry.program, none)])
      | none => some (s.goto g (.slow expr), [])
    | _ => none
  | .lock g =>
    match s.pc g with
    | .slow expr =>
      match s.inflight.lookup expr with
      | some call => some (s.goto g (.wait expr call), [])
      | none =>
        some (({ s with inflight := s.inflight.insert expr s.next, next := s.next + 1 }.setCall
          s.next {}).goto g (.compile expr s.next), [])
    | _ => none
  | .receive g =>
    match s.pc g with
    | .wait expr call =>
      if (s.calls call).closed then
        some (s.goto g .idle, [.returned g expr (s.calls call).result])
      else none
    | _ => none
  | .compile g =>
    match s.pc g with
    | .compile expr call =>
      some ((s.setCall call { s.calls call with result := resultOf compile expr }).goto g
        (.close expr call), [])
    | _ => none
  | .close g =>
    match s.pc g with
    | .close expr call =>
      some ((s.setCall call { s.calls call with closed := true }).goto g (.publish expr call), [])
    | _ => none
  | .publish g order =>
    match s.pc g with
    | .publish expr call =>
      let s := { s with inflight := s.inflight.erase expr }.goto g .idle
      match (s.calls call).result with
      | (_, some err) => some (s, [.returned g expr (none, some err)])
      | (prog, none) =>
        -- another goroutine may have inserted the expression meanwhile
        match s.entries.lookup expr with
        | some entry =>
          some (s.store s.entries expr entry.program, [.returned g expr (entry.program, none)])
        | none =>
          some (s.store (evictIfNeeded order capacity s.entries) expr prog,
            [.returned g expr (prog, none)])
    | _ => none

/-! ## What a step can do -/

variable {compile : String → Except ε P} {capacity : Nat}

inductive Does (compile : String → Except ε P) (capacity : Nat) (s : State ι P ε) :
    Action ι P → State ι P ε → List (Event ι P ε) → Prop
  | call {g : ι} {expr : String} (hpc : s.pc g = .idle) :
      Does compile capacity s (.call g expr) (s.goto g (.lookup expr)) []
  | hit {g : ι} {expr : String} {entry : Entry P} (hpc : s.pc g = .lookup expr)
      (hentry : s.entries.lookup expr = some entry) :
      Does compile capacity s (.lookup g)
        ((s.store s.entries expr entry.program).goto g .idle)
        [.returned g expr (entry.program, none)]
  | miss {g : ι} {expr : String} (hpc : s.pc g = .lookup expr)
      (hentry : s.entries.lookup expr = none) :
      Does compile capacity s (.lookup g) (s.goto g (.slow expr)) []
  | join {g : ι} {expr : String} {call : Nat} (hpc : s.pc g = .slow expr)
      (hcall : s.inflight.lookup expr = some call) :
      Does compile capacity s (.lock g) (s.goto g (.wait expr call)) []
  | lead {g : ι} {expr : String} (hpc : s.pc g = .slow expr)
      (hcall : s.inflight.lookup expr = none) :
      Does compile capacity s (.lock g)
        (({ s with inflight := s.inflight.insert expr s.next, next := s.next + 1 }.setCall
          s.next {}).goto g (.compile expr s.next)) []
  | receive {g : ι} {expr : String} {call : Nat} (hpc : s.pc g = .wait expr call)
      (hclosed : (s.calls call).closed) :
      Does compile capacity s (.receive g) (s.goto g .idle)
        [.returned g expr (s.calls call).result]
  | compile {g : ι} {expr : String} {call : Nat} (hpc : s.pc g = .compile expr call) :
      Does compile capacity s (.compile g)
        ((s.setCall call { s.calls call with result := resultOf compile expr }).goto g
          (.close expr call)) []
  | close {g : ι} {expr : String} {call : Nat} (hpc : s.pc g = .close expr call) :
      Does compile capacity s (.close g)
        ((s.setCall call { s.calls call with closed := true }).goto g (.publish expr call)) []
  | fail {g : ι} {expr : String} {call : Nat} {order : RangeOrder P} {err : CompileError ε}
      (hpc : s.pc g = .publish expr call) (herr : (s.calls call).result.2 = some err) :
      Does compile capacity s (.publish g order)
        ({ s with inflight := s.inflight.erase expr }.goto g .idle)
        [.returned g expr (none, some err)]
  | again {g : ι} {expr : String} {call : Nat} {order : RangeOrder P} {entry : Entry P}
      (hpc : s.pc g = .publish expr call) (herr : (s.calls call).result.2 = none)
      (hentry : s.entries.lookup expr = some entry) :
      Does compile capacity s (.publish g order)
        (({ s with inflight := s.inflight.erase expr }.goto g .idle).store s.entries expr
          entry.program) [.returned g expr (entry.program, none)]
  | insert {g : ι} {expr : String} {call : Nat} {order : RangeOrder P}
      (hpc : s.pc g = .publish expr call) (herr : (s.calls call).result.2 = none)
      (hentry : s.entries.lookup expr = none) :
      Does compile capacity s (.publish g order)
        (({ s with inflight := s.inflight.erase expr }.goto g .idle).store
          (evictIfNeeded order capacity s.entries) expr (s.calls call).result.1)
        [.returned g expr ((s.calls call).result.1, none)]

theorem step_does {s t : State ι P ε} {a : Action ι P} {es : List (Event ι P ε)}
    (h : step compile capacity s a = some (t, es)) : Does compile capacity s a t es := by
  cases a with
  | call g expr =>
    simp only [step] at h
    split at h
    · next hpc => cases h; exact .call hpc
    · cases h
  | lookup g =>
    simp only [step] at h
    split at h
    · next expr hpc =>
      split at h
      · next entry hentry => cases h; exact .hit hpc hentry
      · next hentry => cases h; exact .miss hpc hentry
    · cases h
  | lock g =>
    simp only [step] at h
    split at h
    · next expr hpc =>
      split at h
      · next call hcall => cases h; exact .join hpc hcall
      · next hcall => cases h; exact .lead hpc hcall
    · cases h
  | receive g =>
    simp only [step] at h
    split at h
    · next expr call hpc =>
      split at h
      · next hclosed => cases h; exact .receive hpc hclosed
      · cases h
    · cases h
  | compile g =>
    simp only [step] at h
    split at h
    · next hpc => cases h; exact .compile hpc
    · cases h
  | close g =>
    simp only [step] at h
    split at h
    · next hpc => cases h; exact .close hpc
    · cases h
  | publish g order =>
    simp only [step] at h
    split at h
    · next expr call hpc =>
      split at h
      · next prog err hresult =>
        cases h
        exact .fail hpc (congrArg Prod.snd hresult)
      · next prog hresult =>
        have hresult : (s.calls call).result = (prog, none) := hresult
        have hprog : (s.calls call).result.1 = prog := congrArg Prod.fst hresult
        have herr : (s.calls call).result.2 = none := congrArg Prod.snd hresult
        split at h
        · next entry hentry =>
          cases h
          exact .again hpc herr hentry
        · next hentry =>
          cases h
          rw [← hprog]
          exact .insert hpc herr hentry
    · cases h

end Step

end K8sSched.Cel.Cache
