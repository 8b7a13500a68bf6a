import Granularity.Document.Config
import Granularity.Document.Snapshot
import Granularity.Observer
import Granularity.Proofs.Histories.Counts
import Granularity.Proofs.Histories.Footprint
import Granularity.Proofs.Histories.Order
import Granularity.Proofs.Histories.Replay
import Granularity.Proofs.Histories.Snapshots
import Granularity.Proofs.Histories.Standing
import Granularity.Proofs.Histories.TwoPhase
import Granularity.Proofs.Runs.Admission
import Granularity.Proofs.Runs.Planning
import Granularity.Proofs.Runs.ReadOnly
import Granularity.Proofs.Runs.Success
import Granularity.Session
import Granularity.Proofs.Histories.Confluence
import Granularity.Proofs.Histories.ReleaseOrder
import Granularity.Proofs.Contexts.Rights
import Granularity.Proofs.Contexts.Upgrades
import Granularity.Proofs.Runs.Upgrades
import Granularity.Proofs.Histories.Escalation
import Granularity.Proofs.Histories.Seniority
import Granularity.Proofs.Histories.GivingUp
import Granularity.Proofs.Runs.Restraint
import Granularity.Proofs.Paths
import Granularity.Proofs.Contexts.Survey
import Granularity.Proofs.Documents.Layout
import Granularity.Proofs.Documents.RoundTrip
import Granularity.Proofs.Table.Additions
import Granularity.Proofs.Runs.Closing
import Granularity.Proofs.Table.Draining
