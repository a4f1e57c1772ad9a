import Recency.Cache.Settings
import Recency.Chain.Inspect
import Recency.Index.Lemmas
import Recency.Metrics.Inspect
import Recency.Report
import Recency.Session
import Recency.Proofs.Arena.Slots
import Recency.Proofs.Arena.Stock
import Recency.Proofs.Chain.Links
import Recency.Proofs.Chain.Order
import Recency.Proofs.Chain.Sequence
import Recency.Proofs.Cache.Consistent
import Recency.Proofs.Plain.Refinement
import Recency.Proofs.Session.Potential
import Recency.Proofs.Cache.Actions
import Recency.Proofs.Cache.Moves
import Recency.Proofs.Plain.Simulation
import Recency.Proofs.Session.Orderly
import Recency.Proofs.Session.Capacity
import Recency.Proofs.Session.Notification
import Recency.Proofs.Session.Rounds
import Recency.Proofs.Session.Alone
import Recency.Proofs.Plain.Turns
import Recency.Proofs.Session.History
import Recency.Proofs.Session.Reads
import Recency.Proofs.Session.Touches
import Recency.Proofs.Plain.Changes
import Recency.Proofs.Session.Trail
import Recency.Proofs.Session.Memory
import Recency.Proofs.Session.Metering
import Recency.Proofs.Cache.Stirs
import Recency.Proofs.Session.Misled
import Recency.Proofs.Session.Effects
import Recency.Proofs.Session.Reaping
import Recency.Proofs.Session.Inclusion
import Recency.Proofs.Session.Forms
import Recency.Proofs.Session.Refusal
import Recency.Proofs.Session.HitOrInsert
import Recency.Proofs.Cache.Checked
import Recency.Proofs.Arena.Generations
import Recency.Proofs.Chain.Generations
import Recency.Proofs.Session.Freshness
import Recency.Proofs.Session.Interrupted
import Recency.Proofs.Arena.Counts
import Recency.Proofs.Arena.Reserved
import Recency.Proofs.Chain.Recycled
import Recency.Proofs.Time.Clock
import Recency.Proofs.Metrics.Exposition
