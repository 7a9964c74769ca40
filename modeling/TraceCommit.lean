import TraceCommit.Field.BatchInverse
import TraceCommit.Field.Stored
import TraceCommit.Main
import TraceCommit.Merkle.Opening
import TraceCommit.Polynomial
import TraceCommit.Proofs.Field.Unity
import TraceCommit.Proofs.Kernel.Lanes
import TraceCommit.Proofs.Kernel.Batch
import TraceCommit.Proofs.Chunks
import TraceCommit.Proofs.Parallel.Tasks
import TraceCommit.Proofs.Transform.BitReversal
import TraceCommit.Proofs.Entries
import TraceCommit.Proofs.Polynomial
import TraceCommit.Proofs.Transform.Roots
import TraceCommit.Proofs.Transform.Layer
import TraceCommit.Proofs.Transform.Spectrum
import TraceCommit.Proofs.Transform.Network
import TraceCommit.Proofs.Transform.Forward
import TraceCommit.Proofs.Transform.Inverse
import TraceCommit.Proofs.Matrix
import TraceCommit.Proofs.Transform.Extension
import TraceCommit.Proofs.Commitment
import TraceCommit.Proofs.Merkle.Built
import TraceCommit.Proofs.Merkle.Opening
import TraceCommit.Proofs.Merkle.Binding
import TraceCommit.Proofs.Transform.Coset
import TraceCommit.Proofs.Merkle.Halves
import TraceCommit.Proofs.Hash.Sponge
import TraceCommit.Proofs.Merkle.Depth
import TraceCommit.Proofs.Merkle.Caps
import TraceCommit.Proofs.Merkle.Outcomes
import TraceCommit.Proofs.Field.Quartic
import TraceCommit.Proofs.Field.Norm
import TraceCommit.Proofs.Field.Checked
import TraceCommit.Proofs.Hash.LinearLayer
import TraceCommit.Proofs.Hash.Permutation
import TraceCommit.Proofs.Hash.MatrixProduct
import TraceCommit.Proofs.Transform.Refusal
import TraceCommit.Proofs.Transform.FirstCause
import TraceCommit.Proofs.Parallel.Independence
import TraceCommit.Proofs.Config.Validation
import TraceCommit.Proofs.Committable
import TraceCommit.Proofs.Report
import TraceCommit.Proofs.Kernel.Registry
import TraceCommit.Proofs.Parallel.Switch
import TraceCommit.Proofs.Json.Number
import TraceCommit.Proofs.Json.Token
import TraceCommit.Proofs.Json.Value
import TraceCommit.Proofs.Json.Codec
import TraceCommit.Proofs.Field.Bytes
import TraceCommit.Proofs.Field.Stored
import TraceCommit.Proofs.Config.Document
import TraceCommit.Proofs.Power
import TraceCommit.Proofs.Field.Frobenius
import TraceCommit.Proofs.Transform.Rates
import TraceCommit.Proofs.Hash.Layers
import TraceCommit.Proofs.Hash.Keccak.Lanes
import TraceCommit.Proofs.Hash.Keccak.Bijective
import TraceCommit.Proofs.Hash.Keccak.Elements
import TraceCommit.Proofs.Field.BatchInverse
import TraceCommit.Proofs.Transpose
import TraceCommit.Proofs.Field.Quotient
import TraceCommit.Proofs.Field.Powers
import TraceCommit.Proofs.Polynomial.Degree
import TraceCommit.Proofs.Transform.InPlace
import TraceCommit.Proofs.Transform.SharedTables
import TraceCommit.Proofs.Config.Layers
import TraceCommit.Proofs.Yields
import TraceCommit.Proofs.Sweep
