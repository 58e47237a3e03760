import ZtMapper.Graph.DijkstraCorrect
import ZtMapper.Graph.SccDetector
import ZtMapper.Trie.LpmTrieCorrect
import ZtMapper.Portscan.ExactAlerts
import ZtMapper.Engine.WindowReset
import ZtMapper.Engine.SccSource
import ZtMapper.Engine.AlertLines
import ZtMapper.Aggregator.Lifetime
import ZtMapper.Aggregator.Eviction
import ZtMapper.Aggregator.Order
import ZtMapper.Aggregator.Publish
import ZtMapper.Aggregator.Replicas
import ZtMapper.IncidentService.Isolation
import ZtMapper.IncidentService.Drafts
import ZtMapper.IncidentService.Expiry
import ZtMapper.IncidentService.Postgres
import ZtMapper.IncidentService.DeliveryOrder
import ZtMapper.IncidentService.Occurrences
import ZtMapper.IncidentService.Wire
import ZtMapper.Cluster.Incidents
import ZtMapper.Cluster.Counting
import ZtMapper.Bridge.AppendOnly
import ZtMapper.Bridge.Rotation
import ZtMapper.Collector.Feed
import ZtMapper.Collector.Classes
import ZtMapper.Rbac.Routes
import ZtMapper.Response.Quarantine
import ZtMapper.Soc.ToJson
import ZtMapper.Engine.Distilled
import ZtMapper.ConfigLoader.RoundTrip
import ZtMapper.ConfigLoader.Arithmetic
import ZtMapper.Portscan.ParseArgs
import ZtMapper.Aggregator.Severity
import ZtMapper.Reports.ResolveWeek
import ZtMapper.IncidentService.Summary
import ZtMapper.Server.RedactDSN
import ZtMapper.Notifier.Email
import ZtMapper.Viz.LoadJson
import ZtMapper.Engine.Snapshot
import ZtMapper.Graph.Refinement
import ZtMapper.Portscan.Reports
import ZtMapper.Portscan.Slots
import ZtMapper.IncidentService.Export
import ZtMapper.IncidentService.Listing
