import FiberMachine.Arguments
import FiberMachine.Artifact.Bytes
import FiberMachine.Artifact.Decode
import FiberMachine.Artifact.Document
import FiberMachine.Artifact.Encode
import FiberMachine.Bitcode.Basic
import FiberMachine.Bitcode.Builder
import FiberMachine.Bitcode.Document
import FiberMachine.Bitcode.Link
import FiberMachine.Builtin
import FiberMachine.Code.Basic
import FiberMachine.Code.Document
import FiberMachine.Code.Signature
import FiberMachine.Code.Validate
import FiberMachine.Dict
import FiberMachine.Document
import FiberMachine.Document.Format
import FiberMachine.Document.Json
import FiberMachine.Double
import FiberMachine.Execution
import FiberMachine.Fault
import FiberMachine.Fiber
import FiberMachine.Finder.Basic
import FiberMachine.Finder.Path
import FiberMachine.Finder.Workspace
import FiberMachine.FinderError
import FiberMachine.Frame
import FiberMachine.Heap
import FiberMachine.Host
import FiberMachine.Integer
import FiberMachine.LinkError
import FiberMachine.Machine
import FiberMachine.Meter
import FiberMachine.ModuleName
import FiberMachine.Object
import FiberMachine.Opcode
import FiberMachine.Operator
import FiberMachine.Routine
import FiberMachine.Sequence
import FiberMachine.Snapshot
import FiberMachine.Source
import FiberMachine.Step
import FiberMachine.Text.Blank
import FiberMachine.Text.Hex
import FiberMachine.Text.Identifier
import FiberMachine.Text.Split
import FiberMachine.Value
import FiberMachine.Version
import FiberMachine.World
import FiberMachine.Proofs.Artifact.Reading
import FiberMachine.Proofs.Artifact.Size
import FiberMachine.Proofs.Artifact.RoundTrip
import FiberMachine.Proofs.Artifact.Canonical
import FiberMachine.Proofs.Object.Open
import FiberMachine.Proofs.Execution.Slots
import FiberMachine.Proofs.Execution.Parts
import FiberMachine.Proofs.Execution.Instruction
import FiberMachine.Proofs.Loading.Ledger
import FiberMachine.Proofs.Loading.Transition
import FiberMachine.Proofs.World.History
import FiberMachine.Proofs.Loading.Stranded
import FiberMachine.Proofs.Execution.Nesting
import FiberMachine.Proofs.Execution.Isolation
import FiberMachine.Proofs.Execution.Pause
import FiberMachine.Proofs.Execution.Unlimited
import FiberMachine.Proofs.Execution.Schedule
import FiberMachine.Proofs.Bitcode.Linking
import FiberMachine.Proofs.Code.Accepted
import FiberMachine.Proofs.Execution.Effect
import FiberMachine.Proofs.Execution.Invalid
import FiberMachine.Proofs.Execution.Turn
import FiberMachine.Proofs.Provenance.Machine
import FiberMachine.Proofs.Provenance.Transition
import FiberMachine.Proofs.Provenance.Position
import FiberMachine.Proofs.Provenance.History
import FiberMachine.Proofs.Loading.Registry
import FiberMachine.Proofs.Loading.Uniqueness
import FiberMachine.Proofs.Object.History
import FiberMachine.Proofs.World.Passage
import FiberMachine.Proofs.Loading.Deadlock
import FiberMachine.Proofs.World.Deadline
import FiberMachine.Proofs.Ownership.Confinement
import FiberMachine.Proofs.Ownership.OwnWrites
import FiberMachine.Proofs.Ownership.Veil
import FiberMachine.Proofs.Ownership.Object
import FiberMachine.Proofs.Ownership.Secrecy
import FiberMachine.Proofs.Execution.Unwinding
import FiberMachine.Proofs.Artifact.Partial
import FiberMachine.Proofs.Finder.Name
import FiberMachine.Proofs.Finder.Caching
import FiberMachine.Proofs.Bitcode.Document
import FiberMachine.Proofs.Loading.DepthFirst
import FiberMachine.Proofs.Loading.Imports
import FiberMachine.Proofs.Loading.Search
import FiberMachine.Proofs.Bitcode.Handlers
import FiberMachine.Proofs.Bitcode.Offences
import FiberMachine.Proofs.Code.Captures
import FiberMachine.Proofs.Execution.Binding
import FiberMachine.Proofs.World.Allowance
import FiberMachine.Proofs.Closure.Sharing
import FiberMachine.Proofs.Inequality.Lockstep
import FiberMachine.Proofs.Operator.Arithmetic
import FiberMachine.Proofs.Bitcode.Labels
import FiberMachine.Proofs.Finder.ModulePath
import FiberMachine.Proofs.Template.Construction
