import K8sSched.Bpf.SmpPlaces
import K8sSched.Lib.Shards

/-! # The exported counters

`ReadStats` of `internal/maps/maps.go` and `periodicStatsExport` of
`internal/sched/agent.go` beside the scheduler that writes the counters. The
kernel copies the per-CPU entries to the reader word by word while the CPUs go
on counting, and the agent adds the differences between readings to its own
counters, which are floating-point numbers. What it exports is, for each counter, a
value the counter had at some moment of the last reading, as long as such numbers
hold it exactly. -/

namespace K8sSched.Agent.StatsExport
open K8sSched.Bpf K8sSched.Bpf.Params K8sSched.Bpf.Ops K8sSched.Bpf.SmpPlaces
open K8sSched.Bpf.Smp (System Does step_does)
open K8sSched.Lib.Runs K8sSched.Lib.Shards

/-- The words of an entry, in the order of the struct. -/
inductive Field where
  | enqueues
  | localDispatches
  | budgetCapped
  | defaults
  deriving DecidableEq

def Field.all : List Field := [.enqueues, .localDispatches, .budgetCapped, .defaults]

def Field.get : Field → SchedStats → U64
  | .enqueues, s => s.enqueues
  | .localDispatches, s => s.localDispatches
  | .budgetCapped, s => s.budgetCapped
  | .defaults, s => s.defaults

def Field.set : Field → U64 → SchedStats → SchedStats
  | .enqueues, v, s => { s with enqueues := v }
  | .localDispatches, v, s => { s with localDispatches := v }
  | .budgetCapped, v, s => { s with budgetCapped := v }
  | .defaults, v, s => { s with defaults := v }

/-- The sum over the CPUs. -/
def sumStats (perCPU : List SchedStats) : SchedStats :=
  perCPU.foldl (fun out s =>
    { enqueues := out.enqueues + s.enqueues
      localDispatches := out.localDispatches + s.localDispatches
      budgetCapped := out.budgetCapped + s.budgetCapped
      defaults := out.defaults + s.defaults }) ⟨0, 0, 0, 0⟩

/-- `ReadStats`, given what the two lookups return; `opened` is `m.Stats != nil`. -/
def readStats (opened : Bool) (perCPU : Except String (List SchedStats))
    (plain : Except String SchedStats) : Except String SchedStats :=
  if !opened then .error "stats map not open"
  else match perCPU with
    | .error err => match plain with
      -- older objects use a plain array map
      | .ok out => .ok out
      | .error _ => .error ("lookup stats: " ++ err)
    | .ok perCPU => .ok (sumStats perCPU)

/-- A natural number as a `float64`: to 53 significant bits, a half to the even. -/
def float64 (n : Nat) : Nat :=
  let unit := 2 ^ (n.log2 - 52)
  let q := n / unit
  let r := n % unit
  (if 2 * r < unit ∨ 2 * r = unit ∧ q % 2 = 0 then q else q + 1) * unit

/-- The counters of `internal/metrics`, sums of `float64`; `Defaults` has none. -/
structure Counters where
  enqueueCount : Nat
  budgetCapped : Nat
  localDispatches : Nat
  deriving DecidableEq

def Counters.get (c : Counters) : Field → Nat
  | .enqueues => c.enqueueCount
  | .localDispatches => c.localDispatches
  | .budgetCapped => c.budgetCapped
  | .defaults => 0

/-- The counter after a reading: a counter of the kernel that fell adds nothing. -/
def addDelta (count : Nat) (s last : U64) : Nat :=
  if s ≥ last then float64 (count + float64 (s - last).toNat) else count

/-- What `periodicStatsExport` does with a reading. -/
def exportStats (c : Counters) (s last : SchedStats) : Counters where
  enqueueCount := addDelta c.enqueueCount s.enqueues last.enqueues
  budgetCapped := addDelta c.budgetCapped s.budgetCapped last.budgetCapped
  localDispatches := addDelta c.localDispatches s.localDispatches last.localDispatches

/-! ## The scheduler and the exporter -/

/-- A lookup under way: the words still to copy, and the copies so far. -/
structure Reading (κ : Type) where
  todo : List (κ × Field)
  copy : κ → SchedStats

/-- The scheduler and the agent; `opened` is `m.Stats != nil`. -/
structure Node (κ τ : Type) where
  sched : System κ τ
  opened : Bool
  last : SchedStats
  counters : Counters
  reading : Option (Reading κ)

inductive Event (κ τ : Type) where
  | sched (e : Smp.Event κ τ)
  /-- A lookup begins. -/
  | began
  /-- The reading has been exported. -/
  | exported
  deriving DecidableEq

inductive Action (κ τ : Type) where
  | sched (a : Smp.Action κ τ)
  /-- The ticker fires and the lookup begins. -/
  | tick
  /-- The next word is copied. -/
  | copy
  /-- The lookup fails and so does the one for the plain layout. -/
  | fail (err err2 : String)
  /-- The lookup returns. -/
  | finish

variable {κ τ : Type} [DecidableEq κ] [DecidableEq τ]

/-- The end of a tick, once `ReadStats` has returned. -/
def Node.export (n : Node κ τ) : Except String SchedStats → Node κ τ × List (Event κ τ)
  | .error _ => ({ n with reading := none }, [])
  | .ok s => ({ n with counters := exportStats n.counters s n.last, last := s, reading := none },
      [.exported])

/-- A step; `cpus` is the order in which the kernel copies the entries. -/
def step (cpus : List κ) (n : Node κ τ) : Action κ τ → Option (Node κ τ × List (Event κ τ))
  | .sched a => (Smp.step n.sched a).map fun r => ({ n with sched := r.1 }, r.2.map .sched)
  | .tick =>
    match n.reading, n.opened with
    | some _, _ => none
    | none, false => some (n.export (readStats false (.error "") (.error "")))
    | none, true => some ({ n with reading := some ⟨cpus.flatMap fun c => Field.all.map (c, ·),
        fun _ => ⟨0, 0, 0, 0⟩⟩ }, [.began])
  | .copy =>
    match n.reading with
    | some ⟨(c, f) :: todo, copy⟩ => some ({ n with reading := some ⟨todo,
        Function.update copy c (f.set (f.get (n.sched.stats c)) (copy c))⟩ }, [])
    | _ => none
  | .fail err err2 =>
    match n.reading with
    | some _ => some (n.export (readStats true (.error err) (.error err2)))
    | none => none
  | .finish =>
    match n.reading with
    | some ⟨[], copy⟩ => some (n.export (readStats true (.ok (cpus.map copy)) (.error "")))
    | _ => none

/-- An agent that starts to export. -/
def start (s : System κ τ) (opened : Bool) : Node κ τ :=
  ⟨s, opened, ⟨0, 0, 0, 0⟩, ⟨0, 0, 0⟩, none⟩

/-! ## What the counters count -/

/-- The CPU on which an event counts for a field. -/
def shard (f : Field) : Event κ τ → Option κ
  | .sched (.inserted c _ found slice _) => match f with
    | .enqueues => some c
    | .localDispatches => none
    | .budgetCapped => if slice < defaultSliceNs then some c else none
    | .defaults => if !found then some c else none
  | .sched (.direct c _ _ slice) => match f with
    | .localDispatches => some c
    | .budgetCapped => if slice < defaultSliceNs then some c else none
    | .enqueues | .defaults => none
  | _ => none

section Count

variable {s t : System κ τ} {a : Smp.Action κ τ} {es : List (Smp.Event κ τ)}

omit [DecidableEq τ] in
theorem onShard_singleton (f : Field) (c : κ) (e : Smp.Event κ τ) :
    onShard (shard f) c ([e].map (.sched : _ → Event κ τ)) =
      if shard f (.sched e : Event κ τ) = some c then 1 else 0 := by
  simp only [onShard, List.map_cons, List.map_nil, List.countP_singleton, decide_eq_true_eq]

/-- What `k8s_select_cpu` counts. -/
theorem direct_stats (c d : κ) (p : τ) (f : Field) :
    f.get ((k8sSelectCpu (s.on c d) p true).stats) = f.get (s.stats c) +
      BitVec.ofNat 64 (if shard f (.sched (.direct c d p (s.sliceOf p)) : Event κ τ) = some c
        then 1 else 0) := by
  have hstats : (k8sSelectCpu (s.on c d) p true).stats = { s.stats c with
      localDispatches := (s.stats c).localDispatches + 1
      budgetCapped := if s.sliceOf p < defaultSliceNs then (s.stats c).budgetCapped + 1
        else (s.stats c).budgetCapped } := rfl
  rw [hstats]
  cases f with
  | budgetCapped => by_cases hs : s.sliceOf p < defaultSliceNs <;> simp [Field.get, shard, hs]
  | _ => simp [Field.get, shard]

/-- What `k8s_enqueue` counts. -/
theorem inserted_stats (c : κ) (p : τ) (found : Bool) (tp : TaskParams) (now v : U64) (f : Field) :
    f.get ((Smp.enqueueInsert (s.on c c) p found tp now).stats) = f.get (s.stats c) +
      BitVec.ofNat 64
        (if shard f (.sched (.inserted c p found (taskSlice tp) v) : Event κ τ) = some c
        then 1 else 0) := by
  have hstats : (Smp.enqueueInsert (s.on c c) p found tp now).stats = { s.stats c with
      enqueues := (s.stats c).enqueues + 1
      budgetCapped := if taskSlice tp < defaultSliceNs then (s.stats c).budgetCapped + 1
        else (s.stats c).budgetCapped
      defaults := if !found then (s.stats c).defaults + 1 else (s.stats c).defaults } := rfl
  rw [hstats]
  cases f with
  | budgetCapped => by_cases hs : taskSlice tp < defaultSliceNs <;> simp [Field.get, shard, hs]
  | defaults => cases found <;> simp [Field.get, shard]
  | _ => simp [Field.get, shard]

omit [DecidableEq κ] [DecidableEq τ] in
/-- An event counts on its own CPU only. -/
theorem shard_other {c c' : κ} (hc : c ≠ c') (f : Field) (p : τ) (found : Bool) (slice v : U64)
    (d : κ) : shard f (.sched (.inserted c' p found slice v) : Event κ τ) ≠ some c ∧
      shard f (.sched (.direct c' d p slice) : Event κ τ) ≠ some c := by
  have hc' : c' ≠ c := Ne.symm hc
  cases f <;> simp [shard, hc']

/-- Each event counts on its CPU, in the words that it concerns. -/
theorem does_stats (hd : Does s a t es) (f : Field) (c : κ) :
    f.get (t.stats c) = f.get (s.stats c) +
      BitVec.ofNat 64 (onShard (shard f) c (es.map (.sched : _ → Event κ τ))) := by
  have hsame : ∀ x : SchedStats, f.get x = f.get x + BitVec.ofNat 64 0 := fun x =>
    (BitVec.add_zero _).symm
  cases hd with
  | @wakeLocal c' d p hout hp hpt hidle hallow =>
    rw [onShard_singleton, put_stats]
    by_cases hc : c = c'
    · subst hc
      rw [Function.update_self]
      exact direct_stats c d p f
    · rw [Function.update_of_ne hc, if_neg (shard_other hc f p false _ 0 d).2]
      exact hsame _
  | @insert c' p found pick tp now hpc =>
    rw [onShard_singleton, goto_stats, put_stats]
    by_cases hc : c = c'
    · subst hc
      rw [Function.update_self]
      exact inserted_stats c p found tp now _ f
    · rw [Function.update_of_ne hc, if_neg (shard_other hc f p found _ _ c).1]
      exact hsame _
  | wakeQueue | balanceLocal | balanceMoved | run | refill | lookup | clamp | pick | ahead
  | behind | store | setMaps => exact hsame _
  | @enable c' p =>
    have hstats : Function.update s.stats c' (s.stats c') c = s.stats c := by
      rw [Function.update_eq_self]
    show f.get (Function.update s.stats c' (s.stats c') c) = _
    rw [hstats]
    exact hsame _
  | @sleep c' p | @preemptKeep c' p | @preemptQueue c' p | @expireLocal c' p
  | @expireMoved c' p q =>
    simp only [stop_stats, goto_stats, moveTo_stats]
    exact hsame _

end Count

/-! ## Sums and differences of words -/

section Words

theorem get_sumStats (f : Field) (l : List SchedStats) :
    (f.get (sumStats l)).toNat = (l.map fun s => (f.get s).toNat).sum % 2 ^ 64 := by
  have hfold : ∀ out : SchedStats, (f.get (l.foldl (fun out s =>
      { enqueues := out.enqueues + s.enqueues
        localDispatches := out.localDispatches + s.localDispatches
        budgetCapped := out.budgetCapped + s.budgetCapped
        defaults := out.defaults + s.defaults }) out)).toNat =
      ((f.get out).toNat + (l.map fun s => (f.get s).toNat).sum) % 2 ^ 64 := by
    induction l with
    | nil =>
      intro out
      simpa using (Nat.mod_eq_of_lt (f.get out).isLt).symm
    | cons s l ih =>
      intro out
      rw [List.foldl_cons, ih, List.map_cons, List.sum_cons]
      cases f <;> simp [Field.get, BitVec.toNat_add, Nat.add_assoc]
  have h0 : f.get ⟨0, 0, 0, 0⟩ = 0 := by cases f <;> rfl
  rw [sumStats, hfold, h0]
  simp

theorem float64_of_lt {n : Nat} (h : n < 2 ^ 53) : float64 n = n := by
  have hlog : n.log2 - 52 = 0 := by
    by_cases h0 : n = 0
    · rw [h0]
      rfl
    · have hlt := (Nat.log2_lt h0).mpr h
      omega
  simp [float64, hlog, Nat.mod_one]

example : float64 (2 ^ 53 + 1) = 2 ^ 53 := by decide

theorem addDelta_of_le {s last : U64} (h : last.toNat ≤ s.toNat) (hs : s.toNat < 2 ^ 53) :
    addDelta last.toNat s last = s.toNat := by
  have hle : s ≥ last := BitVec.le_def.mpr h
  have hdelta : float64 (s.toNat - last.toNat) = s.toNat - last.toNat := float64_of_lt (by omega)
  rw [addDelta, if_pos hle, BitVec.toNat_sub_of_le hle, hdelta, Nat.add_sub_cancel' h,
    float64_of_lt hs]

theorem get_exportStats (c : Counters) (s last : SchedStats) {f : Field} (hf : f ≠ .defaults) :
    (exportStats c s last).get f = addDelta (c.get f) (f.get s) (f.get last) := by
  cases f with
  | defaults => exact absurd rfl hf
  | _ => rfl

theorem get_set (f g : Field) (v : U64) (s : SchedStats) :
    g.get (f.set v s) = if g = f then v else g.get s := by
  cases f <;> cases g <;> rfl

/-- The copies after one more word. -/
theorem get_copied (copy : κ → SchedStats) (c d : κ) (f g : Field) (v : U64) :
    g.get (Function.update copy c (f.set v (copy c)) d) =
      if (d, g) = (c, f) then v else g.get (copy d) := by
  by_cases hd : d = c
  · subst hd
    simp [get_set]
  · simp [hd]

end Words

/-! ## The invariant -/

/-- The counter when the run began, over all CPUs. -/
def base (cpus : List κ) (s : System κ τ) (f : Field) : Nat :=
  (cpus.map fun c => (f.get (s.stats c)).toNat).sum

/-- No counter grows beyond what a `float64` counts exactly. -/
def Small (cpus : List κ) (s : System κ τ) (tr : List (Event κ τ)) : Prop :=
  ∀ f, base cpus s f + total (shard f) tr < 2 ^ 53

/-- The last reading: for each field, what the counter was at some moment between
its two ends. -/
structure LastReading (cpus : List κ) (s : System κ τ) (tr : List (Event κ τ)) (last : SchedStats)
    (pre mid post : List (Event κ τ)) : Prop where
  split : tr = pre ++ .began :: (mid ++ .exported :: post)
  newest : .began ∉ mid ∧ .exported ∉ post
  moment : ∀ f : Field, ∃ moment, pre <+: moment ∧ moment <+: pre ++ .began :: mid ∧
    (f.get last).toNat = base cpus s f + total (shard f) moment

/-- The copies made so far were made since the lookup began. -/
structure Copying (cpus : List κ) (s : System κ τ) (tr : List (Event κ τ)) (last : SchedStats)
    (r : Reading κ) (pre mid : List (Event κ τ)) : Prop where
  split : tr = pre ++ .began :: mid
  newest : .began ∉ mid
  last : ∀ f : Field, (f.get last).toNat ≤ base cpus s f + total (shard f) pre
  copy : ∀ c f, (c, f) ∉ r.todo →
    (f.get (s.stats c)).toNat + onShard (shard f) c pre ≤ (f.get (r.copy c)).toNat ∧
      (f.get (r.copy c)).toNat ≤
        (f.get (s.stats c)).toNat + onShard (shard f) c (pre ++ .began :: mid)

structure Inv (cpus : List κ) (s : System κ τ) (tr : List (Event κ τ)) (n : Node κ τ) : Prop where
  words : ∀ f c, (f.get (n.sched.stats c)).toNat =
    (f.get (s.stats c)).toNat + onShard (shard f) c tr
  counters : ∀ f, f ≠ .defaults → n.counters.get f = (f.get n.last).toNat
  last : (.exported ∉ tr ∧ n.last = ⟨0, 0, 0, 0⟩) ∨
    ∃ pre mid post, LastReading cpus s tr n.last pre mid post
  reading : ∀ r, n.reading = some r → ∃ pre mid, Copying cpus s tr n.last r pre mid

omit [DecidableEq κ] [DecidableEq τ] in
theorem Small.of_append {cpus : List κ} {s : System κ τ} {tr es : List (Event κ τ)}
    (h : Small cpus s (tr ++ es)) : Small cpus s tr := by
  intro f
  have hlt := h f
  rw [total_append] at hlt
  omega

omit [DecidableEq τ] in
theorem start_inv {cpus : List κ} {s : System κ τ} {opened : Bool} :
    Inv cpus s [] (start s opened) where
  words := by simp [start, onShard]
  counters := by
    intro f hf
    cases f <;> rfl
  last := .inl ⟨by simp, rfl⟩
  reading := by simp [start]

section Inv

variable {cpus : List κ} {s : System κ τ} {tr es : List (Event κ τ)} {n m : Node κ τ}

omit [DecidableEq τ] in
/-- A reading is not ahead of the counter. -/
theorem Inv.last_le (h : Inv cpus s tr n) (f : Field) :
    (f.get n.last).toNat ≤ base cpus s f + total (shard f) tr := by
  rcases h.last with ⟨-, hlast⟩ | ⟨pre, mid, post, hlast⟩
  · rw [hlast]
    cases f <;> exact Nat.zero_le _
  · obtain ⟨moment, -, hpre, heq⟩ := hlast.moment f
    have htr : moment <+: tr := by
      refine hpre.trans ?_
      rw [hlast.split]
      exact ⟨.exported :: post, by simp⟩
    have hle := total_le_of_prefix (shard (κ := κ) (τ := τ) f) htr
    omega

omit [DecidableEq κ] [DecidableEq τ] in
theorem LastReading.append {last : SchedStats} {pre mid post : List (Event κ τ)}
    (h : LastReading cpus s tr last pre mid post) (hes : .exported ∉ es) :
    LastReading cpus s (tr ++ es) last pre mid (post ++ es) where
  split := by rw [h.split]; simp
  newest := by
    refine ⟨h.newest.1, ?_⟩
    rw [List.mem_append]
    exact fun hmem => hmem.elim h.newest.2 hes
  moment := h.moment

omit [DecidableEq τ] in
theorem Copying.append {last : SchedStats} {r : Reading κ} {pre mid : List (Event κ τ)}
    (h : Copying cpus s tr last r pre mid) (hes : .began ∉ es) :
    Copying cpus s (tr ++ es) last r pre (mid ++ es) where
  split := by rw [h.split]; simp
  newest := by
    rw [List.mem_append]
    exact fun hmem => hmem.elim h.newest hes
  last := h.last
  copy := by
    intro c f hcf
    obtain ⟨hlo, hhi⟩ := h.copy c f hcf
    refine ⟨hlo, hhi.trans ?_⟩
    rw [← List.cons_append, ← List.append_assoc, onShard_append (shard f) c _ es]
    omega

omit [DecidableEq τ] in
/-- A step that exports nothing and leaves the exporter alone. -/
theorem Inv.last_append (h : Inv cpus s tr n) (hes : .exported ∉ es) (hlast : m.last = n.last) :
    (.exported ∉ tr ++ es ∧ m.last = ⟨0, 0, 0, 0⟩) ∨
      ∃ pre mid post, LastReading cpus s (tr ++ es) m.last pre mid post := by
  rw [hlast]
  rcases h.last with ⟨hnone, hzero⟩ | ⟨pre, mid, post, hread⟩
  · exact .inl ⟨by simp [hnone, hes], hzero⟩
  · exact .inr ⟨pre, mid, post ++ es, hread.append hes⟩

theorem Inv.sched {m : System κ τ} {a : Smp.Action κ τ} {es : List (Smp.Event κ τ)}
    (h : Inv cpus s tr n) (hall : ∀ c, c ∈ cpus)
    (hsmall : Small cpus s (tr ++ es.map .sched)) (hd : Does n.sched a m es) :
    Inv cpus s (tr ++ es.map .sched) { n with sched := m } where
  words := by
    intro f c
    have hle := onShard_le_total (shard f) c (tr ++ es.map (.sched : _ → Event κ τ))
    have hbase : (f.get (s.stats c)).toNat ≤ base cpus s f :=
      List.le_sum_of_mem (List.mem_map_of_mem (hall c))
    have hlt := hsmall f
    rw [onShard_append] at hle ⊢
    simp only [does_stats hd f c, BitVec.toNat_add, BitVec.toNat_ofNat, h.words f c]
    rw [Nat.add_mod_mod, Nat.mod_eq_of_lt (by omega), Nat.add_assoc]
  counters := h.counters
  last := h.last_append (by simp) rfl
  reading := by
    intro r hr
    obtain ⟨pre, mid, hcopy⟩ := h.reading r hr
    exact ⟨pre, _, hcopy.append (by simp)⟩

omit [DecidableEq τ] in
theorem Inv.tick (h : Inv cpus s tr n) (hall : ∀ c, c ∈ cpus) :
    Inv cpus s (tr ++ [.began]) { n with
      reading := some ⟨cpus.flatMap fun c => Field.all.map (c, ·), fun _ => ⟨0, 0, 0, 0⟩⟩ } where
  words := by
    intro f c
    rw [onShard_append, h.words]
    simp [onShard, shard]
  counters := h.counters
  last := h.last_append (by simp) rfl
  reading := by
    intro r hr
    obtain rfl := Option.some.inj hr
    refine ⟨tr, [], rfl, by simp, h.last_le, fun c f hcf => absurd ?_ hcf⟩
    simp only [List.mem_flatMap, List.mem_map]
    exact ⟨c, hall c, f, by cases f <;> simp [Field.all], rfl⟩

omit [DecidableEq τ] in
theorem Inv.copy {c : κ} {f : Field} {todo : List (κ × Field)} {copy : κ → SchedStats}
    (h : Inv cpus s tr n) (hr : n.reading = some ⟨(c, f) :: todo, copy⟩) :
    Inv cpus s tr { n with reading := some ⟨todo,
      Function.update copy c (f.set (f.get (n.sched.stats c)) (copy c))⟩ } where
  words := h.words
  counters := h.counters
  last := h.last
  reading := by
    intro r hr'
    obtain rfl := Option.some.inj hr'
    obtain ⟨pre, mid, hcopy⟩ := h.reading _ hr
    refine ⟨pre, mid, hcopy.split, hcopy.newest, hcopy.last, fun d g hdg => ?_⟩
    simp only [get_copied]
    by_cases hnew : (d, g) = (c, f)
    · -- the word just copied is the one of this moment
      obtain ⟨rfl, rfl⟩ := Prod.mk.inj hnew
      rw [if_pos rfl, h.words, ← hcopy.split]
      refine ⟨?_, le_rfl⟩
      rw [hcopy.split, onShard_append]
      omega
    · rw [if_neg hnew]
      exact hcopy.copy d g (by simp [hnew, hdg])

omit [DecidableEq τ] in
/-- The copies add up to a value the counter had during the lookup. -/
theorem Inv.finish {copy : κ → SchedStats} (h : Inv cpus s tr n) (hn : cpus.Nodup)
    (hall : ∀ c, c ∈ cpus) (hsmall : Small cpus s tr) (hr : n.reading = some ⟨[], copy⟩) :
    Inv cpus s (tr ++ [.exported]) { n with
      counters := exportStats n.counters (sumStats (cpus.map copy)) n.last
      last := sumStats (cpus.map copy)
      reading := none } := by
  obtain ⟨pre, mid, hcopy⟩ := h.reading _ hr
  have hmoment : ∀ f : Field, ∃ moment, pre <+: moment ∧ moment <+: pre ++ .began :: mid ∧
      (f.get (sumStats (cpus.map copy))).toNat = base cpus s f + total (shard f) moment := by
    intro f
    obtain ⟨moment, h1, h2, h3⟩ := exists_moment_of_copies hn hall
      (fun c => (hcopy.copy c f (by simp)).1) (fun c => (hcopy.copy c f (by simp)).2)
    have hle := total_le_of_prefix (shard (κ := κ) (τ := τ) f) h2
    have hlt := hsmall f
    rw [hcopy.split] at hlt
    have hsum : (cpus.map ((fun s => (f.get s).toNat) ∘ copy)).sum =
        base cpus s f + total (shard f) moment := h3
    refine ⟨moment, h1, h2, ?_⟩
    rw [get_sumStats, List.map_map, hsum, Nat.mod_eq_of_lt (by omega)]
  refine ⟨fun f c => ?_, fun f hf => ?_, .inr ⟨pre, mid, [], ?_, ⟨hcopy.newest, by simp⟩, hmoment⟩,
    by simp⟩
  · rw [onShard_append, h.words]
    simp [onShard, shard]
  · obtain ⟨moment, h1, h2, h3⟩ := hmoment f
    have hpre := total_le_of_prefix (shard (κ := κ) (τ := τ) f) h1
    have hle := total_le_of_prefix (shard (κ := κ) (τ := τ) f) h2
    have hlt := hsmall f
    rw [hcopy.split] at hlt
    have hlast := hcopy.last f
    rw [get_exportStats _ _ _ hf, h.counters f hf]
    exact addDelta_of_le (by omega) (by omega)
  · rw [hcopy.split]
    simp

theorem Inv.step {a : Action κ τ} (h : Inv cpus s tr n) (hn : cpus.Nodup) (hall : ∀ c, c ∈ cpus)
    (hsmall : Small cpus s (tr ++ es)) (hs : step cpus n a = some (m, es)) :
    Inv cpus s (tr ++ es) m := by
  cases a with
  | sched a =>
    obtain ⟨⟨t, es'⟩, ht, heq⟩ := Option.map_eq_some_iff.mp hs
    obtain ⟨rfl, rfl⟩ := Prod.mk.inj heq
    exact h.sched hall hsmall (step_does ht)
  | tick =>
    simp only [StatsExport.step] at hs
    split at hs
    · cases hs
    · next hr ho =>
      cases hs
      rw [List.append_nil]
      exact ⟨h.words, h.counters, h.last, by simp⟩
    · cases hs
      exact h.tick hall
  | copy =>
    simp only [StatsExport.step] at hs
    split at hs
    · next c f todo copy hr =>
      cases hs
      rw [List.append_nil]
      exact h.copy hr
    · cases hs
  | fail err err2 =>
    simp only [StatsExport.step] at hs
    split at hs
    · cases hs
      rw [List.append_nil]
      exact ⟨h.words, h.counters, h.last, by simp⟩
    · cases hs
  | finish =>
    simp only [StatsExport.step] at hs
    split at hs
    · next copy hr =>
      cases hs
      exact h.finish hn hall (hsmall.of_append) hr
    · cases hs

end Inv

/-- However the CPUs count while the agent reads, and while the counters are below
2^53: what it exports of a counter is what the counter was at some moment between
the two ends of the last lookup that succeeded; before the first it is zero. -/
theorem exported_at_some_moment {cpus : List κ} (hn : cpus.Nodup) (hall : ∀ c, c ∈ cpus)
    {s : System κ τ} {opened : Bool} {ok : Node κ τ → Action κ τ → Prop} {tr : List (Event κ τ)}
    {n : Node κ τ} (h : Run (step cpus) ok (start s opened) tr n) (hsmall : Small cpus s tr)
    {f : Field} (hf : f ≠ .defaults) :
    (.exported ∉ tr ∧ n.counters.get f = 0) ∨
      ∃ pre mid post moment, tr = pre ++ .began :: (mid ++ .exported :: post) ∧
        .began ∉ mid ∧ .exported ∉ post ∧ pre <+: moment ∧ moment <+: pre ++ .began :: mid ∧
        n.counters.get f = base cpus s f + total (shard f) moment := by
  have hinv : Small cpus s tr → Inv cpus s tr n :=
    h.invariant (I := fun tr n => Small cpus s tr → Inv cpus s tr n)
      (fun _ => start_inv) fun tr n a m es ih _ hs hsmall =>
        (ih hsmall.of_append).step hn hall hsmall hs
  have hinv := hinv hsmall
  rw [hinv.counters f hf]
  rcases hinv.last with ⟨hnone, hzero⟩ | ⟨pre, mid, post, hlast⟩
  · refine .inl ⟨hnone, ?_⟩
    rw [hzero]
    cases f <;> rfl
  · obtain ⟨moment, h1, h2, h3⟩ := hlast.moment f
    exact .inr ⟨pre, mid, post, moment, hlast.split, hlast.newest.1, hlast.newest.2, h1, h2, h3⟩

/-- Each CPU enqueues a task during the lookup, one after its entry has been
copied and the other before. -/
def overlapping : List (Action Bool Bool) :=
  [.sched (.enable true true), .sched (.enable true false), .tick, .copy, .copy, .copy, .copy,
    .sched (.wake true true none), .sched (.proceed true), .sched (.proceed true),
    .sched (.proceed true), .sched (.wake false false none), .sched (.proceed false),
    .sched (.proceed false), .sched (.proceed false), .copy, .copy, .copy, .copy, .finish]

/-- Two have been enqueued and one is exported, as it was between the two. -/
theorem exported_at_some_moment_between :
    ∃ (tr : List (Event Bool Bool)) (n : Node Bool Bool),
      Run (step [true, false]) (fun _ _ => True)
        (start (Smp.boot ⟨∅, ∅⟩ (fun _ => ⟨0, none⟩) fun _ _ => true) true) tr n ∧
      total (shard .enqueues) tr = 2 ∧ n.counters.get .enqueues = 1 ∧
      ∃ moment, moment <+: tr ∧ n.counters.get .enqueues = total (shard .enqueues) moment := by
  have h : Run (step [true, false]) (fun _ _ => True)
      (start (Smp.boot (κ := Bool) (τ := Bool) ⟨∅, ∅⟩ (fun _ => ⟨0, none⟩) fun _ _ => true) true)
      _ _ := Run.of_isSome overlapping (by decide) (by decide)
  refine ⟨_, _, h, by decide, by decide, ?_⟩
  rcases exported_at_some_moment (by decide) (by decide) h
    (fun f => by cases f <;> decide) (f := .enqueues) (by decide) with ⟨-, hzero⟩ | hread
  · exact absurd hzero (by decide)
  · obtain ⟨pre, mid, post, moment, hsplit, -, -, -, hpre, heq⟩ := hread
    refine ⟨moment, hpre.trans ?_, heq.trans (by simp [base, Smp.boot, Field.get])⟩
    rw [hsplit]
    exact ⟨.exported :: post, by simp⟩

end K8sSched.Agent.StatsExport
