import Isolate.Numeric.Decimal
import Isolate.Text.Radix
import Isolate.Digest.Sha256
import Isolate.Code.Assembler
import Isolate.Chunk.Reader
import Isolate.Chunk.Cache
import Isolate.Registry
import Isolate.Heap.Collection
import Isolate.Settings.Text
import Isolate.Notice
import Isolate.Context.Tables
import Isolate.Context.Functions
import Isolate.Native.Standard
import Isolate.Native.Probe
import Isolate.Machine.Run
import Isolate.Session.Remote
import Isolate.Context.Graph
import Isolate.Proofs.Chunk.Verify
import Isolate.Proofs.Chunk.Agreement
import Isolate.Proofs.Chunk.RoundTrip
import Isolate.Proofs.Machine.Safety
import Isolate.Proofs.Transfer.Fidelity
import Isolate.Proofs.Transfer.Requests
import Isolate.Proofs.Heap.History
import Isolate.Proofs.Transfer.Isolation
import Isolate.Proofs.Context.Usage
import Isolate.Proofs.Machine.Isolation
import Isolate.Proofs.Machine.Reserved
import Isolate.Proofs.Transfer.Adoption
import Isolate.Proofs.Session.FanOut
import Isolate.Proofs.Session.Locking
import Isolate.Proofs.Transfer.Relay
import Isolate.Proofs.Accord
import Isolate.Proofs.Machine.Parallel
import Isolate.Proofs.Machine.Lockstep
import Isolate.Proofs.Machine.Nameless
import Isolate.Proofs.Machine.Mirror
import Isolate.Proofs.Value.Order
import Isolate.Proofs.Value.Equality
import Isolate.Proofs.Chunk.Delimited
import Isolate.Proofs.Chunk.Acceptance
import Isolate.Proofs.Chunk.Size
import Isolate.Proofs.Transfer.Forwarding
import Isolate.Proofs.Machine.Discipline
import Isolate.Proofs.Transfer.Deeds
import Isolate.Proofs.Code.References
import Isolate.Proofs.Code.Listing
import Isolate.Proofs.Context.Writes
import Isolate.Proofs.Machine.Traceback
import Isolate.Proofs.Heap.Threshold
import Isolate.Proofs.Registry.History
import Isolate.Proofs.Session.Rejection
import Isolate.Proofs.Machine.AtHand
import Isolate.Proofs.Machine.Budget
import Isolate.Proofs.Session.Budget
