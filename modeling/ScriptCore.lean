import ScriptCore.Eval
import ScriptCore.Serial.Thread
import ScriptCore.Symbol
import ScriptCore.Lock
import ScriptCore.Ownership.Holdings
import ScriptCore.Host.Builtins
import ScriptCore.Host.Types
import ScriptCore.Wire.Device
import ScriptCore.Proofs.Chain
import ScriptCore.Proofs.Equality
import ScriptCore.Proofs.Fuel
import ScriptCore.Proofs.Heap
import ScriptCore.Proofs.Meaning
import ScriptCore.Proofs.Reader
import ScriptCore.Proofs.RoundTrip
import ScriptCore.Proofs.Simulation
import ScriptCore.Proofs.Tree
import ScriptCore.Proofs.Wire
import ScriptCore.Proofs.Writer
import ScriptCore.Proofs.WriterDomain
import ScriptCore.Proofs.Confinement
import ScriptCore.Proofs.Termination
import ScriptCore.Proofs.Limits
import ScriptCore.Proofs.Overlay
import ScriptCore.Proofs.Bisimilarity
import ScriptCore.Proofs.Positions
import ScriptCore.Proofs.Encoding
import ScriptCore.Proofs.Discipline
import ScriptCore.Proofs.Balance
import ScriptCore.Proofs.Records
import ScriptCore.Proofs.Reclamation
import ScriptCore.Proofs.Depth
import ScriptCore.Proofs.Interning
import ScriptCore.Proofs.Dispatch
import ScriptCore.Proofs.MethodCalls
import ScriptCore.Proofs.Devices
import ScriptCore.Proofs.Relocation
import ScriptCore.Proofs.Streams
import ScriptCore.Proofs.Extent
import ScriptCore.Proofs.Offsets
import ScriptCore.Proofs.Labels
import ScriptCore.Proofs.Obstacles
import ScriptCore.Proofs.NestingLimit
import ScriptCore.Proofs.Truncation
import ScriptCore.Proofs.Copies
import ScriptCore.Proofs.ChainReader
import ScriptCore.Proofs.InPlace
import ScriptCore.Proofs.Capacity
import ScriptCore.Proofs.Appending
import ScriptCore.Proofs.Legibility
import ScriptCore.Proofs.Indexing
import ScriptCore.Proofs.Sequences
import ScriptCore.Proofs.Scoping
import ScriptCore.Proofs.Summation
