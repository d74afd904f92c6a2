import K8sSched.Bpf.Places
import K8sSched.Bpf.BudgetCap
import K8sSched.Bpf.Charging
import K8sSched.Bpf.Ideal
import K8sSched.Bpf.TaskView
import K8sSched.Bpf.Bypass
import K8sSched.Bpf.FairShare
import K8sSched.Agent.Pods
import K8sSched.Lib.GoMap
import K8sSched.Lib.WriteRecord
import K8sSched.Agent.MapOps
import K8sSched.Agent.UpdateHistory
import K8sSched.Agent.Policies
import K8sSched.Agent.Watcher
import K8sSched.Agent.ActivePods
import K8sSched.Agent.CgroupFs
import K8sSched.Agent.Sweep
import K8sSched.Agent.Handover
import K8sSched.Agent.Budgets
import K8sSched.Agent.Bookkeeping
import K8sSched.Agent.Host
import K8sSched.Agent.MatchTracking
import K8sSched.Agent.UpdateFilter
import K8sSched.Agent.Isolation
import K8sSched.Agent.Coverage
import K8sSched.Agent.PidReuse
import K8sSched.Cel.Cache
import K8sSched.Cel.SingleFlight
import K8sSched.Agent.PinnedMaps
import K8sSched.Bpf.WrapFaithful
import K8sSched.Agent.StatusPatch
import K8sSched.Agent.Polling
import K8sSched.Agent.Precedence
import K8sSched.Agent.TrackedPods
import K8sSched.Agent.RemovalFrame
import K8sSched.Agent.FailedLoad
import K8sSched.Cel.Residency
import K8sSched.Lib.Recency
import K8sSched.Cel.HitOrder
import K8sSched.Agent.ProcFiles
import K8sSched.Agent.PidResolvers
import K8sSched.Agent.ExactTracking
import K8sSched.Agent.ClusterStatus
import K8sSched.Agent.ProcCache
import K8sSched.Agent.StatsExport
import K8sSched.Bpf.SmpBypass
import K8sSched.Bpf.SmpOneCpu
import K8sSched.Agent.PolicyMirror
import K8sSched.Agent.SchedNode
import K8sSched.Agent.SweepCompletes
import K8sSched.Agent.WeightRange
import K8sSched.Cel.CallsReturn
import K8sSched.Agent.HandoverGap
import K8sSched.Agent.ResolverLock
import K8sSched.Bpf.SmpWaitTime
