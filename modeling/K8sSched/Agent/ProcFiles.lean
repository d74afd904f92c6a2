import Mathlib.Data.List.DropRight
import K8sSched.Lib.Substrings
import K8sSched.Agent.Host

/-! # The files with the PIDs

`parseCgroupProcs`, `resolveViaCgroupV2` and `resolveViaProcScan` of
`internal/maps/maps.go` on the texts they read: the `cgroup.procs` file of every
directory, the entries of `/proc` and their `cgroup` files. On the files of a node
that show its processes they return the PIDs that `Host` has them return. -/

namespace K8sSched.Agent.ProcFiles

open K8sSched.Bpf.Params K8sSched.Agent.CgroupFs K8sSched.Agent.Host K8sSched.Lib.Substrings

/-! ## Parsing -/

/-- `unicode.IsSpace`. -/
def isSpace (c : Char) : Bool :=
  c.toNat ∈ [0x09, 0x0A, 0x0B, 0x0C, 0x0D, 0x20, 0x85, 0xA0, 0x1680, 0x2028, 0x2029, 0x202F,
    0x205F, 0x3000] || (0x2000 ≤ c.toNat && c.toNat ≤ 0x200A)

def trimSpace (s : List Char) : List Char := (s.dropWhile isSpace).rdropWhile isSpace

/-- `strconv.ParseInt(s, 10, bitSize)`: an optional sign, decimal digits, within
the bounds of the type. -/
def parseInt (bitSize : Nat) (s : List Char) : Option Int :=
  let (negative, digits) := match s with
    | '+' :: rest => (false, rest)
    | '-' :: rest => (true, rest)
    | _ => (false, s)
  if digits = [] ∨ ¬ digits.all Char.isDigit then none
  else
    let n := Nat.ofDigitChars 10 digits 0
    if negative then
      if n ≤ 2 ^ (bitSize - 1) then some (-n) else none
    else if n < 2 ^ (bitSize - 1) then some n else none

/-- One PID on a line; other lines are skipped. -/
def parseCgroupProcs (data : String) : List U32 :=
  ((trimSpace data.toList).splitOn '\n').filterMap fun line =>
    let line := trimSpace line
    if line = [] then none else (parseInt 32 line).map (BitVec.ofInt 32)

/-- The walk over the pod's directory; a file that cannot be read is skipped. -/
def resolveViaCgroupV2 (tree : CgroupTree) (f : Faults) (procsFile : Path → Option String)
    (uid : String) : List U32 :=
  match findPodCgroupDir tree f uid with
  | none => []
  | some dir => (tree.dirs.filter fun d => walks f dir d.path).flatMap fun d =>
      match procsFile d.path with
      | none => []
      | some data => parseCgroupProcs data

/-- An entry of `/proc`, and its file `cgroup` if it can be read. -/
structure ProcEntry where
  name : String
  isDir : Bool
  cgroup : Option String

def resolveViaProcScan (entries : List ProcEntry) (uid : String) : List U32 :=
  entries.filterMap fun entry =>
    if entry.isDir then
      match parseInt 64 entry.name.toList, entry.cgroup with
      | some pid, some content =>
        if (podMarkers uid).any fun marker => marker.toList <:+: content.toList then
          some (BitVec.ofInt 32 pid)
        else none
      | _, _ => none
    else none

/-! ## Numerals and lines -/

theorem ofInt_toNat (pid : U32) : BitVec.ofInt 32 (pid.toNat : Int) = pid := by
  rw [BitVec.ofInt_natCast, BitVec.ofNat_toNat, BitVec.setWidth_eq]

/-- The digits of a PID. -/
def digits (pid : U32) : List Char := Nat.toDigits 10 pid.toNat

theorem digits_isDigit {pid : U32} {c : Char} (h : c ∈ digits pid) : c.isDigit = true :=
  Nat.isDigit_of_mem_toDigits (by decide) (by decide) h

theorem digits_ne_nil (pid : U32) : digits pid ≠ [] := Nat.toDigits_ne_nil

theorem toList_toString (pid : U32) : (toString pid.toNat).toList = digits pid := by
  rw [Nat.toString_eq_ofList_toDigits, String.toList_ofList]
  rfl

theorem isDigit_iff {c : Char} : c.isDigit = true ↔ 48 ≤ c.toNat ∧ c.toNat ≤ 57 := by
  simp [Char.isDigit, UInt32.le_iff_toNat_le]

theorem isSpace_of_isDigit {c : Char} (h : c.isDigit = true) : isSpace c = false := by
  have hbounds := isDigit_iff.mp h
  simp only [isSpace, Bool.or_eq_false_iff, decide_eq_false_iff_not, List.mem_cons,
    List.not_mem_nil, or_false, Bool.and_eq_false_iff]
  omega

theorem parseInt_digits {pid : U32} (bitSize : Nat) (h : pid.toNat < 2 ^ (bitSize - 1)) :
    parseInt bitSize (digits pid) = some (pid.toNat : Int) := by
  have hvalue : Nat.ofDigitChars 10 (digits pid) 0 = pid.toNat :=
    Nat.ofDigitChars_toDigits (by decide) (by decide)
  have hall : (digits pid).all Char.isDigit = true :=
    List.all_eq_true.mpr fun c hc => digits_isDigit hc
  obtain ⟨c, rest, hc⟩ := List.exists_cons_of_ne_nil (digits_ne_nil pid)
  have hdigit : c.isDigit = true := digits_isDigit (show c ∈ digits pid by rw [hc]; simp)
  have hplus : c ≠ '+' := by
    rintro rfl
    exact absurd hdigit (by decide)
  have hminus : c ≠ '-' := by
    rintro rfl
    exact absurd hdigit (by decide)
  have hsign : (match digits pid with
      | '+' :: rest => (false, rest)
      | '-' :: rest => (true, rest)
      | _ => (false, digits pid)) = (false, digits pid) := by
    rw [hc]
    split
    · next heq => exact absurd (List.cons.inj heq).1 hplus
    · next heq => exact absurd (List.cons.inj heq).1 hminus
    · rfl
  simp only [parseInt, hsign, hvalue, hall]
  simp [digits_ne_nil, h]

theorem trimSpace_of_forall {l : List Char} (h : ∀ c ∈ l, isSpace c = false) :
    trimSpace l = l := by
  have hdrop : l.dropWhile isSpace = l := by
    cases l with
    | nil => rfl
    | cons c l => exact List.dropWhile_cons_of_neg (by simp [h c])
  rw [trimSpace, hdrop, List.rdropWhile_eq_self_iff]
  intro hne
  simp [h _ (List.getLast_mem hne)]

/-- The newline at the end is cut off. -/
theorem trimSpace_terminated {l first last : List Char} (hfirst : first <+: l) (hlast : last <:+ l)
    (hne : first ≠ []) (hne' : last ≠ []) (h : ∀ c ∈ first, isSpace c = false)
    (h' : ∀ c ∈ last, isSpace c = false) : trimSpace (l ++ ['\n']) = l := by
  obtain ⟨c, first, rfl⟩ := List.exists_cons_of_ne_nil hne
  obtain ⟨t, rfl⟩ := hfirst
  have hdrop : (c :: first ++ t ++ ['\n']).dropWhile isSpace = c :: first ++ t ++ ['\n'] :=
    List.dropWhile_cons_of_neg (by simp [h c])
  rw [trimSpace, hdrop, List.rdropWhile_concat_pos _ _ _ (by decide),
    List.rdropWhile_eq_self_iff]
  intro hl
  obtain ⟨s, heq⟩ := hlast
  have hmem : (c :: first ++ t).getLast hl = last.getLast hne' := by
    simp only [← heq, List.getLast_append_of_ne_nil _ hne']
  rw [hmem]
  simp [h' _ (List.getLast_mem hne')]

/-- The content of a `cgroup.procs` file. -/
def procsContent (pids : List U32) : String :=
  String.join (pids.map fun pid => toString pid.toNat ++ "\n")

theorem toList_procsContent (pids : List U32) :
    (procsContent pids).toList = ((pids.map digits).map (· ++ ['\n'])).flatten := by
  rw [procsContent, String.toList_join, List.flatMap_def, List.map_map, List.map_map]
  congr 1
  refine List.map_congr_left fun pid _ => ?_
  simp only [Function.comp_apply, String.toList_append, toList_toString]
  rfl

/-- What the kernel writes is read back. -/
theorem parseCgroupProcs_content {pids : List U32} (h : ∀ pid ∈ pids, pid.toNat < 2 ^ 31) :
    parseCgroupProcs (procsContent pids) = pids := by
  have hspace : ∀ pid : U32, ∀ c ∈ digits pid, isSpace c = false := fun pid c hc =>
    isSpace_of_isDigit (digits_isDigit hc)
  rcases List.eq_nil_or_concat' pids with rfl | ⟨front, final, hfinal⟩
  · rfl
  obtain ⟨start, rest, hstart⟩ := List.exists_cons_of_ne_nil
    (show pids ≠ [] by rw [hfinal]; simp)
  have hne : pids.map digits ≠ [] := by rw [hstart]; simp
  have hlines : (trimSpace (procsContent pids).toList).splitOn '\n' = pids.map digits := by
    have hfirst : digits start <+: ['\n'].intercalate (pids.map digits) := by
      rw [hstart]
      exact prefix_intercalate ..
    have hlast : digits final <:+ ['\n'].intercalate (pids.map digits) := by
      rw [hfinal, List.map_append]
      exact suffix_intercalate ..
    rw [toList_procsContent, flatten_terminated hne, trimSpace_terminated hfirst hlast
      (digits_ne_nil _) (digits_ne_nil _) (hspace start) (hspace final)]
    refine List.splitOn_intercalate '\n' (fun l hl hmem => ?_) hne
    obtain ⟨pid, -, rfl⟩ := List.mem_map.mp hl
    exact absurd (digits_isDigit hmem) (by decide)
  rw [parseCgroupProcs, hlines, List.filterMap_map]
  have hline : ∀ pid ∈ pids, ((fun line =>
      let line := trimSpace line
      if line = [] then none else (parseInt 32 line).map (BitVec.ofInt 32)) ∘ digits) pid =
      some pid := by
    intro pid hpid
    simp only [Function.comp_apply, trimSpace_of_forall (hspace pid), if_neg (digits_ne_nil pid),
      parseInt_digits 32 (h pid hpid), Option.map_some, ofInt_toNat]
  rw [List.filterMap_congr hline, List.filterMap_some]

/-! ## The files of a node -/

/-- The processes of a node and the files that show them: every process is in one
directory, whose `cgroup.procs` lists it, and the listing of `/proc` is new. Beside
the processes `/proc` has entries whose names are no numbers. -/
structure Snapshot where
  tree : CgroupTree
  procs : ProcTable
  procsFile : Path → Option String
  entries : List ProcEntry
  pid_lt : ∀ pid ∈ procs, pid.toNat < 2 ^ 31
  placed : ∀ pid p, procs.lookup pid = some p → p.cgroup.path = [] ∨ p.cgroup.path ∈ tree.paths
  parents : ∀ name parent, name :: parent ∈ tree.paths → parent = [] ∨ parent ∈ tree.paths
  listed : ∀ path ∈ tree.paths, ∃ pids, procsFile path = some (procsContent pids) ∧
    ∀ pid, pid ∈ pids ↔ ∃ p, procs.lookup pid = some p ∧ p.cgroup.path = path
  shown : ∀ pid p, procs.lookup pid = some p →
    ⟨toString pid.toNat, true, some p.cgroupFile⟩ ∈ entries
  fresh : ∀ entry ∈ entries, entry.isDir → (parseInt 64 entry.name.toList).isSome →
    ∃ pid p, procs.lookup pid = some p ∧ entry = ⟨toString pid.toNat, true, some p.cgroupFile⟩

namespace Snapshot

variable (s : Snapshot)

/-- All reads succeed and the listing of `/proc` is new. -/
def reads : HostFaults := { listed := s.procs.keys }

def viaCgroupV2 (uid : String) : List U32 := resolveViaCgroupV2 s.tree {} s.procsFile uid

def viaProcScan (uid : String) : List U32 := resolveViaProcScan s.entries uid

variable {s} {uid : String} {pid : U32}

theorem pid_lt_of_lookup {p : Proc} (h : s.procs.lookup pid = some p) : pid.toNat < 2 ^ 31 :=
  s.pid_lt pid (Finmap.mem_iff.mpr ⟨p, h⟩)

/-- The file of a directory that exists is read as the PIDs in it. -/
theorem mem_procsFile {path : Path} (h : path ∈ s.tree.paths) :
    (pid ∈ match s.procsFile path with
      | none => []
      | some data => parseCgroupProcs data) ↔
      ∃ p, s.procs.lookup pid = some p ∧ p.cgroup.path = path := by
  obtain ⟨pids, hfile, hpids⟩ := s.listed path h
  have hlt : ∀ pid ∈ pids, pid.toNat < 2 ^ 31 := by
    intro pid hpid
    obtain ⟨p, hp, -⟩ := (hpids pid).mp hpid
    exact pid_lt_of_lookup hp
  rw [hfile]
  simp only [parseCgroupProcs_content hlt]
  exact hpids pid

theorem mem_viaCgroupV2 :
    pid ∈ s.viaCgroupV2 uid ↔ ∃ dir, findPodCgroupDir s.tree {} uid = some dir ∧
      ∃ p, s.procs.lookup pid = some p ∧ walks {} dir p.cgroup.path := by
  unfold viaCgroupV2 resolveViaCgroupV2
  cases hdir : findPodCgroupDir s.tree {} uid with
  | none => simp
  | some dir =>
    simp only [List.mem_flatMap, List.mem_filter, Option.some.injEq, exists_eq_left']
    constructor
    · rintro ⟨d, ⟨hd, hwalk⟩, hpid⟩
      obtain ⟨p, hp, hpath⟩ := (mem_procsFile (List.mem_map_of_mem hd)).mp hpid
      exact ⟨p, hp, hpath ▸ hwalk⟩
    · rintro ⟨p, hp, hwalk⟩
      rcases s.placed pid p hp with hroot | hmem
      · rw [hroot] at hwalk
        cases hwalk
      · obtain ⟨d, hd, hpath⟩ := List.mem_map.mp hmem
        exact ⟨d, ⟨hd, by rwa [hpath]⟩, (mem_procsFile (List.mem_map_of_mem hd)).mpr
          ⟨p, hp, hpath.symm⟩⟩

theorem mem_viaProcScan :
    pid ∈ s.viaProcScan uid ↔ ∃ p, s.procs.lookup pid = some p ∧
      ∃ marker ∈ podMarkers uid, marker.toList <:+: p.cgroupFile.toList := by
  have hpid : ∀ {pid : U32} {p}, s.procs.lookup pid = some p →
      parseInt 64 (toString pid.toNat).toList = some (pid.toNat : Int) := by
    intro pid p hp
    rw [toList_toString]
    exact parseInt_digits 64 ((pid_lt_of_lookup hp).trans (by decide))
  unfold viaProcScan resolveViaProcScan
  rw [List.mem_filterMap]
  constructor
  · rintro ⟨entry, hentry, hsome⟩
    split at hsome
    · next hdir =>
      split at hsome
      · next n content hn hcontent =>
        obtain ⟨pid', p, hp, rfl⟩ := s.fresh entry hentry hdir (by rw [hn]; rfl)
        rw [hpid hp] at hn
        cases hn
        cases hcontent
        split at hsome
        · next hany =>
          rw [ofInt_toNat] at hsome
          cases hsome
          exact ⟨p, hp, by simpa using hany⟩
        · cases hsome
      · cases hsome
    · cases hsome
  · rintro ⟨p, hp, hmarker⟩
    refine ⟨_, s.shown pid p hp, ?_⟩
    have hany : ((podMarkers uid).any fun marker =>
        marker.toList <:+: p.cgroupFile.toList) = true := by simpa using hmarker
    simp only [if_true, hpid hp, hany, ofInt_toNat]

/-- The texts say what `Host` takes from the processes. -/
theorem toFinset_viaCgroupV2 (s : Snapshot) (uid : String) :
    (s.viaCgroupV2 uid).toFinset = Host.resolveViaCgroupV2 s.tree s.procs s.reads uid := by
  ext pid
  rw [List.mem_toFinset, mem_viaCgroupV2, Host.resolveViaCgroupV2]
  change _ ↔ pid ∈ (match findPodCgroupDir s.tree {} uid with
    | none => _
    | some dir => _)
  cases findPodCgroupDir s.tree {} uid with
  | none => simp
  | some dir =>
    simp only [Option.some.injEq, exists_eq_left', Finset.mem_filter, Finmap.mem_keys,
      Finmap.mem_iff]
    cases s.procs.lookup pid with
    | none => simp
    | some p => simp [reads]

theorem toFinset_viaProcScan (s : Snapshot) (uid : String) :
    (s.viaProcScan uid).toFinset = Host.resolveViaProcScan s.procs s.reads uid := by
  ext pid
  rw [List.mem_toFinset, mem_viaProcScan, Host.resolveViaProcScan, Finset.mem_filter]
  change _ ↔ pid ∈ s.procs.keys ∧ _
  rw [Finmap.mem_keys, Finmap.mem_iff]
  cases s.procs.lookup pid with
  | none => simp
  | some p => simp [reads]

end Snapshot

end K8sSched.Agent.ProcFiles
