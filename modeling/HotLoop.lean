import HotLoop.Heap.Equal
import HotLoop.Main
import HotLoop.Proofs.Counter.Transparency
import HotLoop.Proofs.DeadStore.Replay
import HotLoop.Proofs.Fit
import HotLoop.Proofs.Eviction
import HotLoop.Proofs.Visit
import HotLoop.Proofs.Failure
import HotLoop.Proofs.Wire.Field
import HotLoop.Proofs.Wire.Codec
import HotLoop.Proofs.Wire.RoundTrip
import HotLoop.Proofs.Provenance
import HotLoop.Proofs.Confinement
import HotLoop.Proofs.DeadStore.Remainder
import HotLoop.Proofs.Causes
import HotLoop.Proofs.Balance
import HotLoop.Proofs.Emptiness
import HotLoop.Proofs.Offers
import HotLoop.Proofs.Journal.Warming
import HotLoop.Proofs.Hotness
import HotLoop.Proofs.Accounts
import HotLoop.Proofs.Equality
import HotLoop.Proofs.Jumps
import HotLoop.Proofs.Requests
import HotLoop.Proofs.Recall
import HotLoop.Proofs.Heights
import HotLoop.Proofs.DeadStore.Outline
import HotLoop.Proofs.Arithmetic
import HotLoop.Proofs.References
