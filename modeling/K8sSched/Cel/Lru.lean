import K8sSched.Lib.Recency
import K8sSched.Cel.Evaluate
import K8sSched.Cel.SingleFlight

/-! # The cache used by one goroutine

`getOrCompile` and `Evaluate` of `internal/cel/cache.go` without concurrency: what
a call returns and what it leaves in the cache. The steps of a goroutine alone in
the cache come to the same. As long as the clock does not wrap, the order of the
clocks is the order of use and eviction deletes what was used least recently. -/

namespace K8sSched.Cel.Lru

open K8sSched.Bpf.Params (U64)
open K8sSched.Cel.Cache K8sSched.Cel.Evaluate K8sSched.Cel.SingleFlight
open K8sSched.Lib.Runs K8sSched.Lib.Recency
open K8sSched.Lib.GoMap (lookup_insert_eq_some lookup_erase_eq_some)

variable {P ε ν : Type} {compile : String → Except ε P} {capacity : Nat}

/-! ## Calls in sequence -/

/-- The part of the state that is left between calls. -/
structure Contents (P : Type) where
  entries : Entries P
  globalClock : U64

/-- The entry of an expression is written with a new clock. -/
def Contents.store (c : Contents P) (entries : Entries P) (expr : String) (program : Option P) :
    Contents P :=
  ⟨entries.insert expr ⟨c.globalClock + 1, program⟩, c.globalClock + 1⟩

def getOrCompile (compile : String → Except ε P) (capacity : Nat) (order : RangeOrder P)
    (c : Contents P) (expr : String) : Contents P × Result P ε :=
  match c.entries.lookup expr with
  | some entry => (c.store c.entries expr entry.program, (entry.program, none))
  | none =>
    match compile expr with
    | .error err => (c, (none, some ⟨expr, err⟩))
    | .ok prog =>
      (c.store (evictIfNeeded order capacity c.entries) expr (some prog), (some prog, none))

/-- A call of `Evaluate`, and the order in which it may have to range over the
entries. -/
structure Call (P ν : Type) where
  expr : String
  vars : ν
  order : RangeOrder P

/-- `Evaluate`; there is no result if it calls a nil program. -/
def cachedEvaluate (compile : String → Except ε P) (eval : P → ν → Except ε Value)
    (capacity : Nat) (c : Contents P) (call : Call P ν) :
    Contents P × Option (Except (EvalError ε) Bool) :=
  match getOrCompile compile capacity call.order c call.expr with
  | (c, _, some err) => (c, some (.error (.compile err)))
  | (c, some prog, none) => (c, some (runProgram eval prog call.vars))
  | (c, none, none) => (c, none)

/-- The cache after a sequence of calls. -/
def after (compile : String → Except ε P) (eval : P → ν → Except ε Value) (capacity : Nat)
    (c : Contents P) (calls : List (Call P ν)) : Contents P :=
  calls.foldl (fun c call => (cachedEvaluate compile eval capacity c call).1) c

theorem cachedEvaluate_fst (compile : String → Except ε P) (eval : P → ν → Except ε Value)
    (capacity : Nat) (c : Contents P) (call : Call P ν) :
    (cachedEvaluate compile eval capacity c call).1 =
      (getOrCompile compile capacity call.order c call.expr).1 := by
  unfold cachedEvaluate
  split
  · next h => rw [h]
  · next h => rw [h]
  · next h => rw [h]

/-- The expressions of the calls that compile. -/
def compiling (compile : String → Except ε P) (calls : List (Call P ν)) : List String :=
  (calls.map Call.expr).filter fun expr => (compile expr).isOk

/-! ## One goroutine alone -/

section Steps

variable {ι : Type} [DecidableEq ι]

def contents (s : State ι P ε) : Contents P := ⟨s.entries, s.globalClock⟩

/-- The steps of a call when no other goroutine takes any. -/
def steps (g : ι) (entries : Entries P) (call : Call P ν) : List (Action ι P) :=
  match entries.lookup call.expr with
  | some _ => [.call g call.expr, .lookup g]
  | none => [.call g call.expr, .lookup g, .lock g, .compile g, .close g] ++
      [.publish g call.order]

/-- Between the calls of a goroutine that is alone. -/
structure Alone (g : ι) (s : State ι P ε) : Prop where
  pc : s.pc g = .idle
  inflight : ∀ expr, s.inflight.lookup expr = none

omit [DecidableEq ι] in
theorem lookup_inflight_erase {s : State ι P ε} (h : ∀ expr, s.inflight.lookup expr = none)
    (expr e : String) (call : Nat) :
    ((s.inflight.insert expr call).erase expr).lookup e = none := by
  by_cases he : e = expr
  · rw [he, Finmap.lookup_erase]
  · rw [Finmap.lookup_erase_ne he, Finmap.lookup_insert_of_ne _ he, h]

/-- The steps of a call alone are `getOrCompile`. -/
theorem exec_steps (compile : String → Except ε P) (capacity : Nat) {g : ι} {s : State ι P ε}
    (h : Alone g s) (call : Call P ν) :
    ∃ t, exec (step compile capacity) s (steps g s.entries call) = some (t,
        [.returned g call.expr
          (getOrCompile compile capacity call.order (contents s) call.expr).2]) ∧
      contents t = (getOrCompile compile capacity call.order (contents s) call.expr).1 ∧
      Alone g t := by
  unfold steps getOrCompile
  cases hentry : s.entries.lookup call.expr with
  | some entry =>
    simp only [contents, hentry]
    refine ⟨_, exec_hit compile capacity h.pc hentry, rfl, pc_goto_self .., h.inflight⟩
  | none =>
    obtain ⟨t, hexec, hpublish, hresult, hentries, hclock, hinflight⟩ :=
      exec_leading compile capacity h.pc hentry (h.inflight call.expr)
    have hdone : ∀ e, (t.inflight.erase call.expr).lookup e = none := by
      rw [hinflight]
      exact fun e => lookup_inflight_erase h.inflight ..
    simp only [contents, hentry]
    rw [resultOf] at hresult
    cases hcompile : compile call.expr with
    | error err =>
      rw [hcompile] at hresult
      have hlast := step_publish_error compile capacity call.order hpublish hresult
      refine ⟨_, exec_append_of_eq hexec (exec_cons_of_eq hlast rfl), ?_, pc_goto_self .., hdone⟩
      rw [← hentries, ← hclock]
      rfl
    | ok prog =>
      rw [hcompile] at hresult
      have hlast := step_publish_ok compile capacity call.order hpublish hresult
        (by rw [hentries, hentry])
      refine ⟨_, exec_append_of_eq hexec (exec_cons_of_eq hlast rfl), ?_, pc_goto_self .., hdone⟩
      rw [← hentries, ← hclock]
      rfl

/-- The steps of a sequence of calls. -/
def allSteps (compile : String → Except ε P) (capacity : Nat) (g : ι) :
    Contents P → List (Call P ν) → List (Action ι P)
  | _, [] => []
  | c, call :: calls => steps g c.entries call ++
      allSteps compile capacity g (getOrCompile compile capacity call.order c call.expr).1 calls

/-- A goroutine alone leaves in the cache what the sequence of its calls does. -/
theorem exec_allSteps (compile : String → Except ε P) (eval : P → ν → Except ε Value)
    (capacity : Nat) {g : ι} {s : State ι P ε} (h : Alone g s) (calls : List (Call P ν)) :
    ∃ t log, exec (step compile capacity) s (allSteps compile capacity g (contents s) calls) =
        some (t, log) ∧ contents t = after compile eval capacity (contents s) calls := by
  induction calls generalizing s with
  | nil => exact ⟨s, [], rfl, rfl⟩
  | cons call calls ih =>
    obtain ⟨t, hexec, hcontents, halone⟩ := exec_steps compile capacity h call
    obtain ⟨u, log, hexec', hcontents'⟩ := ih halone
    rw [hcontents] at hexec' hcontents'
    refine ⟨u, _, exec_append_of_eq hexec hexec', ?_⟩
    rw [hcontents', after, after, List.foldl_cons, cachedEvaluate_fst]

end Steps

/-! ## Clocks in order of use -/

/-- The entries are the keys of the list, and their clocks fall along it. -/
structure Represents (c : Contents P) (l : List String) : Prop where
  mem : ∀ k, k ∈ c.entries ↔ k ∈ l
  falling : l.Pairwise fun k k' => ∀ e e', c.entries.lookup k = some e →
    c.entries.lookup k' = some e' → e'.clock.toNat < e.clock.toNat
  clock : ∀ k e, c.entries.lookup k = some e → e.clock.toNat ≤ c.globalClock.toNat

section Represents

variable {c : Contents P} {l : List String}

theorem represents_empty (clock : U64) : Represents (⟨∅, clock⟩ : Contents P) [] where
  mem := fun k => iff_of_false Finmap.notMem_empty List.not_mem_nil
  falling := .nil
  clock := fun k e he => by cases he

theorem Represents.exists_lookup (h : Represents c l) {k : String} (hk : k ∈ l) :
    ∃ e, c.entries.lookup k = some e :=
  Finmap.mem_iff.mp ((h.mem k).mpr hk)

theorem Represents.nodup (h : Represents c l) : l.Nodup := by
  refine h.falling.imp_of_mem fun {k k'} hk _ hlt heq => ?_
  obtain ⟨e, he⟩ := h.exists_lookup hk
  exact lt_irrefl _ (hlt e e he (heq ▸ he))

theorem Represents.keys (h : Represents c l) : c.entries.keys = l.toFinset := by
  ext k
  rw [Finmap.mem_keys, h.mem, List.mem_toFinset]

theorem Represents.card (h : Represents c l) : c.entries.keys.card = l.length := by
  rw [h.keys, List.toFinset_card_of_nodup h.nodup]

/-- Some of the entries, in the order they had. -/
theorem Represents.sublist (h : Represents c l) {kept : Entries P} {l' : List String}
    (hsub : l'.Sublist l) (hmem : ∀ k, k ∈ kept ↔ k ∈ l')
    (hkept : ∀ k e, kept.lookup k = some e → c.entries.lookup k = some e) :
    Represents ⟨kept, c.globalClock⟩ l' where
  mem := hmem
  falling := (h.falling.sublist hsub).imp fun hlt e e' he he' =>
    hlt e e' (hkept _ _ he) (hkept _ _ he')
  clock := fun k e he => h.clock k e (hkept k e he)

/-- An entry written with a new clock comes first. -/
theorem Represents.store (h : Represents c l) (hclock : c.globalClock.toNat + 1 < 2 ^ 64)
    (expr : String) (program : Option P) :
    Represents (c.store c.entries expr program) (expr :: l.erase expr) := by
  have hnew : (c.globalClock + 1).toNat = c.globalClock.toNat + 1 := by
    rw [BitVec.toNat_add]
    exact Nat.mod_eq_of_lt hclock
  have hself : (c.store c.entries expr program).entries.lookup expr =
      some ⟨c.globalClock + 1, program⟩ := Finmap.lookup_insert _
  have hother : ∀ {k}, k ≠ expr →
      (c.store c.entries expr program).entries.lookup k = c.entries.lookup k :=
    fun hk => Finmap.lookup_insert_of_ne _ hk
  have hne : ∀ k ∈ l.erase expr, k ≠ expr := fun k hk => (h.nodup.mem_erase_iff.mp hk).1
  refine ⟨fun k => ?_, List.pairwise_cons.mpr ⟨fun k hk e e' he he' => ?_, ?_⟩, fun k e he => ?_⟩
  · rw [List.mem_cons, h.nodup.mem_erase_iff, ← h.mem]
    change k ∈ Finmap.insert expr _ _ ↔ _
    rw [Finmap.mem_insert]
    by_cases hk : k = expr
    · exact iff_of_true (.inl hk) (.inl hk)
    · simp [hk]
  · rw [hself] at he
    rw [hother (hne k hk)] at he'
    cases he
    rw [hnew]
    exact Nat.lt_succ_of_le (h.clock k e' he')
  · refine (h.falling.sublist List.erase_sublist).imp_of_mem fun {k k'} hk hk' hlt => ?_
    rwa [hother (hne k hk), hother (hne k' hk')]
  · change e.clock.toNat ≤ (c.globalClock + 1).toNat
    rw [hnew]
    rcases lookup_insert_eq_some.mp he with ⟨-, rfl⟩ | ⟨-, he⟩
    · exact hnew.le
    · exact (h.clock k e he).trans (Nat.le_succ _)

/-- The key the loop of the eviction finds is the last one of the list. -/
theorem Represents.oldestKey_eq {k : String} (h : Represents c (l ++ [k]))
    (hempty : "" ∉ c.entries) (hclock : c.globalClock.toNat < 2 ^ 64 - 1)
    (order : RangeOrder P) : oldestKey order c.entries ≠ "" ∧ oldestKey order c.entries = k := by
  obtain ⟨e, he⟩ := h.exists_lookup (k := k) (by simp)
  have hne : oldestKey order c.entries ≠ "" := by
    refine (oldestKey_ne_iff hempty).mpr ⟨k, e, he, fun heq => ?_⟩
    have hle := h.clock k e he
    rw [heq, BitVec.toNat_allOnes] at hle
    omega
  refine ⟨hne, ?_⟩
  have hmem : oldestKey order c.entries ∈ l ++ [k] := (h.mem _).mp (oldestKey_mem hne)
  rcases List.mem_append.mp hmem with hold | hold
  · -- the last key would be older
    obtain ⟨e₀, he₀⟩ := h.exists_lookup hmem
    have hlt := (List.pairwise_append.mp h.falling).2.2 _ hold k (by simp) e₀ e he₀ he
    have hle := BitVec.le_def.mp (oldestKey_le hne he₀ he)
    omega
  · exact List.mem_singleton.mp hold

/-- Eviction leaves all but the last of `capacity` keys. -/
theorem Represents.evict (h : Represents c l) (hempty : "" ∉ c.entries)
    (hclock : c.globalClock.toNat < 2 ^ 64 - 1) (hcapacity : 1 ≤ capacity)
    (hlength : l.length ≤ capacity) (order : RangeOrder P) :
    Represents ⟨evictIfNeeded order capacity c.entries, c.globalClock⟩
      (l.take (capacity - 1)) := by
  rcases List.eq_nil_or_concat' l with rfl | ⟨l, k, rfl⟩
  · rw [evictIfNeeded, if_neg (by rw [h.card, List.length_nil]; omega), List.take_nil]
    exact h
  by_cases hfull : (l ++ [k]).length < capacity
  · rw [evictIfNeeded, if_neg (by rw [h.card]; omega), List.take_of_length_le (by omega)]
    exact h
  have hlast : l.length = capacity - 1 := by
    rw [List.length_append, List.length_singleton] at hlength hfull
    omega
  obtain ⟨hne, holdest⟩ := h.oldestKey_eq hempty hclock order
  have herased : evictIfNeeded order capacity c.entries = c.entries.erase k := by
    have hcard := card_erase_lt (oldestKey_mem hne)
    rw [h.card, holdest] at hcard
    rw [evictIfNeeded, if_pos (by rw [h.card]; omega), dif_neg hne, holdest, evictIfNeeded,
      if_neg (by omega)]
  have hnot : k ∉ l := by
    have hnodup := h.nodup
    rw [List.nodup_append] at hnodup
    exact fun hk => hnodup.2.2 k hk k (by simp) rfl
  rw [List.take_left' hlast, herased]
  refine h.sublist (List.sublist_append_left l [k]) (fun k' => ?_) fun k' e he => ?_
  · rw [Finmap.mem_erase, h.mem, List.mem_append, List.mem_singleton]
    constructor
    · rintro ⟨hk, hl | hl⟩
      · exact hl
      · exact absurd hl hk
    · intro hl
      exact ⟨fun heq => hnot (heq ▸ hl), .inl hl⟩
  · exact (lookup_erase_eq_some.mp he).2

end Represents

/-! ## A whole sequence -/

/-- Programs are cached under the expressions they are compiled from. -/
def Programs (compile : String → Except ε P) (entries : Entries P) : Prop :=
  ∀ expr entry, entries.lookup expr = some entry →
    ∃ prog, compile expr = .ok prog ∧ entry.program = some prog

theorem Programs.store {entries kept : Entries P} (h : Programs compile entries)
    (hsub : ∀ expr entry, kept.lookup expr = some entry → entries.lookup expr = some entry)
    {expr : String} {prog : P} (hok : compile expr = .ok prog) (clock : U64) :
    Programs compile (kept.insert expr ⟨clock, some prog⟩) := by
  intro e entry he
  rcases lookup_insert_eq_some.mp he with ⟨rfl, rfl⟩ | ⟨-, he⟩
  · exact ⟨prog, hok, rfl⟩
  · exact h e entry (hsub e entry he)

section Run

variable {c : Contents P} {l : List String} {expr : String}

/-- A failed compilation leaves the cache as it is. -/
theorem getOrCompile_error (order : RangeOrder P) (hp : Programs compile c.entries)
    (h : (compile expr).isOk = false) :
    (getOrCompile compile capacity order c expr).1 = c := by
  unfold getOrCompile
  split
  · next entry hentry =>
    obtain ⟨prog, hok, -⟩ := hp expr entry hentry
    rw [hok] at h
    cases h
  · split
    · rfl
    · next prog hok =>
      rw [hok] at h
      cases h

/-- A call of an expression that compiles uses it. -/
theorem getOrCompile_ok (order : RangeOrder P) (hreject : ∀ prog, compile "" ≠ .ok prog)
    (hcapacity : 1 ≤ capacity) (hp : Programs compile c.entries) (h : Represents c l)
    (hlength : l.length ≤ capacity) (hclock : c.globalClock.toNat + 1 < 2 ^ 64)
    {prog : P} (hok : compile expr = .ok prog) :
    Programs compile (getOrCompile compile capacity order c expr).1.entries ∧
      Represents (getOrCompile compile capacity order c expr).1 (use capacity l expr) ∧
      (getOrCompile compile capacity order c expr).1.globalClock = c.globalClock + 1 := by
  unfold getOrCompile
  cases hentry : c.entries.lookup expr with
  | some entry =>
    obtain ⟨prog', hok', hprogram⟩ := hp expr entry hentry
    have hmem : expr ∈ l := (h.mem expr).mp (Finmap.mem_iff.mpr ⟨entry, hentry⟩)
    have hshort : (expr :: l.erase expr).length ≤ capacity := by
      rw [List.length_cons, List.length_erase_of_mem hmem]
      have := List.length_pos_of_mem hmem
      omega
    refine ⟨?_, ?_, rfl⟩
    · simp only [hprogram]
      exact hp.store (fun _ _ he => he) hok' _
    · rw [use, List.take_of_length_le hshort]
      exact h.store hclock expr entry.program
  | none =>
    have hnot : expr ∉ l := fun hmem => Finmap.lookup_eq_none.mp hentry ((h.mem expr).mpr hmem)
    have hempty : "" ∉ c.entries := by
      intro hmem
      obtain ⟨entry, he⟩ := Finmap.mem_iff.mp hmem
      obtain ⟨prog, hprog, -⟩ := hp "" entry he
      exact hreject prog hprog
    have hevict := h.evict hempty (by omega) hcapacity hlength order
    have hstore := hevict.store hclock expr (some prog)
    simp only [hok]
    refine ⟨hp.store (fun _ _ he => evict_lookup he) hok _, ?_, rfl⟩
    have huse : use capacity l expr = expr :: (l.take (capacity - 1)).erase expr := by
      obtain ⟨n, rfl⟩ : ∃ n, capacity = n + 1 := ⟨capacity - 1, by omega⟩
      rw [use, List.erase_of_not_mem hnot, List.take_succ_cons, Nat.add_sub_cancel,
        List.erase_of_not_mem (mt List.mem_of_mem_take hnot)]
    rw [huse]
    exact hstore

/-- What `Evaluate` returns does not depend on the cache. -/
theorem cachedEvaluate_snd (hp : Programs compile c.entries) (eval : P → ν → Except ε Value)
    (call : Call P ν) :
    (cachedEvaluate compile eval capacity c call).2 =
      some (evaluate compile eval call.expr call.vars) := by
  unfold cachedEvaluate getOrCompile evaluate
  cases hentry : c.entries.lookup call.expr with
  | some entry =>
    obtain ⟨prog, hok, hprogram⟩ := hp call.expr entry hentry
    simp only [hprogram, hok]
  | none =>
    cases hcompile : compile call.expr with
    | error err => rfl
    | ok prog => rfl

theorem after_represents (eval : P → ν → Except ε Value)
    (hreject : ∀ prog, compile "" ≠ .ok prog) (hcapacity : 1 ≤ capacity)
    (hp : Programs compile c.entries) (h : Represents c l) (hlength : l.length ≤ capacity)
    {calls : List (Call P ν)}
    (hclock : c.globalClock.toNat + (compiling compile calls).length < 2 ^ 64) :
    Represents (after compile eval capacity c calls)
      ((compiling compile calls).foldl (use capacity) l) := by
  induction calls generalizing c l with
  | nil => exact h
  | cons call calls ih =>
    rw [after, List.foldl_cons, cachedEvaluate_fst]
    cases hok : compile call.expr with
    | error err =>
      have hfail : (compile call.expr).isOk = false := by rw [hok]; rfl
      have hskip : compiling compile (call :: calls) = compiling compile calls := by
        rw [compiling, List.map_cons, List.filter_cons_of_neg (by simp [hfail]), compiling]
      rw [hskip] at hclock ⊢
      rw [getOrCompile_error call.order hp hfail]
      exact ih hp h hlength hclock
    | ok prog =>
      have hused : compiling compile (call :: calls) = call.expr :: compiling compile calls := by
        rw [compiling, List.map_cons, List.filter_cons_of_pos (by rw [hok]; rfl), compiling]
      rw [hused, List.length_cons] at hclock
      obtain ⟨hp', h', hclock'⟩ := getOrCompile_ok call.order hreject hcapacity hp h
        hlength (by omega) hok
      rw [hused, List.foldl_cons]
      refine ih hp' h' (List.length_take_le _ _) ?_
      rw [hclock', BitVec.toNat_add, show (1 : U64).toNat = 1 from rfl,
        Nat.mod_eq_of_lt (by omega)]
      omega

end Run

/-- After any sequence of calls of `Evaluate` from an empty cache, as long as the
clock does not wrap: in the cache are the `capacity` expressions that compile and
were evaluated most recently, or all if they are fewer. -/
theorem cached_most_recent (compile : String → Except ε P)
    (hreject : ∀ prog, compile "" ≠ .ok prog) (eval : P → ν → Except ε Value) {capacity : Nat}
    (hcapacity : 1 ≤ capacity) (clock : U64) (calls : List (Call P ν))
    (hclock : clock.toNat + (compiling compile calls).length < 2 ^ 64) :
    (after compile eval capacity ⟨∅, clock⟩ calls).entries.keys =
        ((recent (compiling compile calls)).take capacity).toFinset ∧
      (after compile eval capacity ⟨∅, clock⟩ calls).entries.keys.card =
        min capacity (compiling compile calls).toFinset.card := by
  have hrep := after_represents eval hreject hcapacity (fun _ _ he => by cases he)
    (represents_empty clock) (Nat.zero_le _) hclock
  rw [foldl_use] at hrep
  refine ⟨hrep.keys, ?_⟩
  rw [hrep.card, List.length_take, length_recent]

noncomputable def call (expr : String) : Call String Unit := ⟨expr, (), anyOrder String⟩

/-- The hit of `a` lets `b` go first; the empty expression does not count. -/
theorem cached_most_recent_hit :
    (after verbatim (fun _ _ => .ok (.other "int")) 2 ⟨∅, 7⟩
      [call "a", call "b", call "a", call "", call "c"]).entries.keys = {"a", "c"} := by
  rw [(cached_most_recent verbatim (by simp [verbatim]) _ (by decide) 7 _ (by decide)).1]
  decide

end K8sSched.Cel.Lru
