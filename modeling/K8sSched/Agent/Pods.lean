import K8sSched.Bpf.Params

/-! # Pods and their annotations

The parts of `corev1.Pod` the agent reads, and the annotation parsers of
`internal/maps/maps.go`. A Go `map[string]string` is an optional finite map:
`reflect.DeepEqual` tells a nil map from an empty one. -/

namespace K8sSched.Agent.Pods

open K8sSched.Bpf.Params

abbrev StringMap := Option (Finmap fun _ : String => String)

/-- `m[key]`, empty for a nil map or a missing key. -/
def StringMap.get (m : StringMap) (key : String) : String :=
  (m.bind fun m => m.lookup key).getD ""

inductive Phase
  | pending | running | succeeded | failed | unknown
  deriving DecidableEq, Repr

inductive QOSClass
  | guaranteed | burstable | bestEffort | unset
  deriving DecidableEq, Repr

/-- The string the class is in the API object. -/
def QOSClass.name : QOSClass → String
  | .guaranteed => "Guaranteed"
  | .burstable => "Burstable"
  | .bestEffort => "BestEffort"
  | .unset => ""

structure ContainerStatus where
  containerID : String
  restartCount : BitVec 32
  deriving DecidableEq

/-- CPU request and limit of a container, in thousandths; zero when not set,
as `ResourceList.Cpu` has it. -/
structure Container where
  cpuRequest : Int
  cpuLimit : Int
  deriving DecidableEq

structure Pod where
  name : String
  ns : String
  uid : String
  labels : StringMap := none
  annotations : StringMap := none
  phase : Phase := .running
  qosClass : QOSClass := .unset
  containerStatuses : List ContainerStatus := []
  containers : List Container := []
  priorityClassName : String := ""
  nodeName : String := ""
  deriving DecidableEq

/-- A pod without labels and annotations. -/
def web : Pod := { name := "web", ns := "default", uid := "u1" }

/-! ## Annotations -/

def defaultWeight : U64 := 1000
def defaultBudgetNs : U64 := 0

def annotationWeight : String := "scheduling.fengrru.dev/weight"
def annotationBudget : String := "scheduling.fengrru.dev/budget-microseconds"
def annotationImportance : String := "scheduling.fengrru.dev/importance"

/-- `strconv.ParseUint(s, 10, 64)`: decimal digits only, at least one, below
`2 ^ 64`. -/
def parseUint (s : String) : Option U64 := do
  if s = "" then none
  let n ← s.toList.foldlM (fun n c =>
    if c.isDigit then some (n * 10 + (c.toNat - '0'.toNat)) else none) 0
  if n < 2 ^ 64 then some (BitVec.ofNat 64 n) else none

/-- An annotation that is a number within bounds; anything else counts as not
set. -/
def parseWithin (ann : StringMap) (key : String) (lo hi : U64) : Option U64 :=
  if ann.get key ≠ "" then (parseUint (ann.get key)).filter fun v => lo ≤ v ∧ v ≤ hi else none

/-- A weight overrides an importance; zero when neither is set. -/
def parseAnnotationWeight (ann : StringMap) : U64 :=
  match parseWithin ann annotationWeight 1 10000 with
  | some v => v
  | none =>
    match parseWithin ann annotationImportance 1 100 with
    | some v => v * 100
    | none => 0

/-- In nanoseconds, the product taken in `uint64`; zero when not set. -/
def parseAnnotationBudget (ann : StringMap) : U64 :=
  match parseWithin ann annotationBudget 1 (BitVec.allOnes 64) with
  | some v => v * 1000
  | none => 0

/-- The value an annotation overrides, kept where the annotation is zero. -/
def overrideWith (annotated value : U64) : U64 := if 0 < annotated then annotated else value

def extractSchedulingParams (pod : Pod) : TaskParams where
  weight := overrideWith (parseAnnotationWeight pod.annotations) defaultWeight
  budgetNs := overrideWith (parseAnnotationBudget pod.annotations) defaultBudgetNs

example :
    parseAnnotationWeight (some ((∅ : Finmap _).insert annotationImportance "90")) = 9000 := by
  decide

end K8sSched.Agent.Pods
