import HaloIndex.Halo.Builder
import HaloIndex.IndexSet.Resize
import HaloIndex.IndexSet.SlotView
import HaloIndex.Json.Forms
import HaloIndex.Link.Editor
import HaloIndex.Rebuild.Table
import HaloIndex.Sync.Table
import HaloIndex.Transport.World
import HaloIndex.Workspace
import HaloIndex.Proofs.Transport.Interleaving
import HaloIndex.Proofs.Transport.Concert
import HaloIndex.Proofs.Order
import HaloIndex.Proofs.Rebuild.Publication
import HaloIndex.Proofs.Rebuild.Matching
import HaloIndex.Proofs.Rebuild.Ring
import HaloIndex.Proofs.Rebuild.Swap
import HaloIndex.Proofs.Rebuild.Table
import HaloIndex.Proofs.IndexSet.Keys
import HaloIndex.Proofs.IndexSet.Resize
import HaloIndex.Proofs.Rebuild.Reference
import HaloIndex.Proofs.Sync.Announcement
import HaloIndex.Proofs.Link.Lockstep
import HaloIndex.Proofs.Sync.Scan
import HaloIndex.Proofs.Sync.Discovery
import HaloIndex.Proofs.Sync.Table
import HaloIndex.Proofs.Sync.ClosedForm
import HaloIndex.Proofs.Sync.Mutual
import HaloIndex.Proofs.Transport.Reduction
import HaloIndex.Proofs.Transport.Session
import HaloIndex.Proofs.Session.Collective
import HaloIndex.Proofs.Session.Orderly
import HaloIndex.Proofs.Wire.Faults
import HaloIndex.Proofs.Rebuild.Result
import HaloIndex.Proofs.Rebuild.Routes
import HaloIndex.Proofs.Sync.Atomic
import HaloIndex.Proofs.Halo.Plan
import HaloIndex.Proofs.Halo.Mirror
import HaloIndex.Proofs.Halo.Pairing
import HaloIndex.Proofs.Transport.Prefix
import HaloIndex.Proofs.Sync.Closure
import HaloIndex.Proofs.Sync.Rounds
import HaloIndex.Proofs.IndexSet.Ledger
import HaloIndex.Proofs.IndexSet.Abstraction
import HaloIndex.Proofs.IndexSet.Refinement
import HaloIndex.Proofs.Rebuild.OneSet
import HaloIndex.Proofs.Sync.Idle
import HaloIndex.Proofs.Session.Refresh
import HaloIndex.Proofs.IndexSet.Window
import HaloIndex.Proofs.Session.Healing
import HaloIndex.Proofs.Transport.Backlog
import HaloIndex.Proofs.Rebuild.Backlog
import HaloIndex.Proofs.Halo.Refusal
import HaloIndex.Proofs.Transport.Receipt
import HaloIndex.Proofs.Rebuild.Provenance
import HaloIndex.Proofs.Session.Sharing
import HaloIndex.Proofs.IndexSet.Later
import HaloIndex.Proofs.Link.Pruning
import HaloIndex.Proofs.Sync.Resolution
import HaloIndex.Proofs.Session.Fitting
import HaloIndex.Proofs.Session.Agreement
import HaloIndex.Proofs.Transport.Delivery
import HaloIndex.Proofs.Session.Reductions
import HaloIndex.Proofs.Link.Editor
import HaloIndex.Proofs.IndexSet.Slots
import HaloIndex.Proofs.Sync.Numbering
import HaloIndex.Proofs.IndexSet.AnyOrder
import HaloIndex.Proofs.Link.Walk
import HaloIndex.Proofs.Wire.Framing
import HaloIndex.Proofs.Wire.Exact
import HaloIndex.Proofs.Sync.Codec
import HaloIndex.Proofs.Transport.Damage
import HaloIndex.Proofs.Rebuild.Damage
import HaloIndex.Proofs.Halo.Construction
import HaloIndex.Proofs.Transport.Drain
import HaloIndex.Proofs.Sync.Draining
import HaloIndex.Proofs.Session.Refusal
import HaloIndex.Proofs.Session.Draining
import HaloIndex.Proofs.Sync.Asking
import HaloIndex.Proofs.Rebuild.LoopBack
import HaloIndex.Proofs.IndexSet.LinearScan
import HaloIndex.Proofs.Session.Staleness
import HaloIndex.Proofs.IndexSet.SlotView
import HaloIndex.Proofs.Role.Set
import HaloIndex.Proofs.Sync.Addressing
import HaloIndex.Proofs.Wire.Types
import HaloIndex.Proofs.Wire.Sequences
