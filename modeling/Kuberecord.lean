import Kuberecord.Settlement
import Kuberecord.ClaimOwners
import Kuberecord.EventAbsence
import Kuberecord.SingleDeaths
import Kuberecord.SettledHistory
import Kuberecord.Watch.Evictions
import Kuberecord.Watch.Wakeups
import Kuberecord.Sinks.Successors
import Kuberecord.Sinks.WarmScopes
import Kuberecord.Noninterference
import Kuberecord.Sinks.Outcomes
import Kuberecord.Labels
import Kuberecord.Sharing
import Kuberecord.Watch.Redactions
import Kuberecord.Watch.ScopeLogs
import Kuberecord.Watch.Transform
import Kuberecord.CloseOuts
import Kuberecord.Sequences
import Kuberecord.Control.Targets
import Kuberecord.RedactionGrammar
import Kuberecord.Watch.Restarts
import Kuberecord.Sinks.Backends
import Kuberecord.Control.Discovery
import Kuberecord.Control.SinkInstances
import Kuberecord.ScopeTotals
import Kuberecord.SeededRows
import Kuberecord.Sinks.ScopeTables
import Kuberecord.Control.Parker
