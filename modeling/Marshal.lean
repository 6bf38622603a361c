import Marshal.Bytes
import Marshal.Scalar
import Marshal.Text
import Marshal.MessageId
import Marshal.Error
import Marshal.Log
import Marshal.Action
import Marshal.Elements
import Marshal.Region
import Marshal.Reader
import Marshal.Buffer
import Marshal.Format
import Marshal.Format.Wire
import Marshal.Format.Leaves
import Marshal.Buffer.Arrays
import Marshal.Coder
import Marshal.Routing
import Marshal.Handle.Status
import Marshal.Handle
import Marshal.Version
import Marshal.Session.Answer
import Marshal.Session.Readers
import Marshal.Session.Buffers
import Marshal.Session.Handlers
import Marshal.Session.Service
import Marshal.Session.Handles
import Marshal.Proofs.Storage
import Marshal.Proofs.Agreement
import Marshal.Proofs.Slots
import Marshal.Proofs.Flattening
import Marshal.Proofs.Reading
import Marshal.Proofs.Writing
import Marshal.Proofs.WireForm
import Marshal.Proofs.RoundTrip
import Marshal.Proofs.Loops
import Marshal.Proofs.Regions
import Marshal.Proofs.Simulation
import Marshal.Proofs.Steps
import Marshal.Proofs.Congruence
import Marshal.Proofs.StaleBytes
import Marshal.Proofs.Bounds
import Marshal.Proofs.Disclosure
import Marshal.Proofs.StaleHandles
import Marshal.Proofs.Recycling
import Marshal.Proofs.Machine
import Marshal.Proofs.MachineCalls
import Marshal.Proofs.MachineSteps
import Marshal.Proofs.Safety
import Marshal.Proofs.PartialWrites
import Marshal.Proofs.PartialReads
import Marshal.Proofs.BufferReads
import Marshal.Proofs.ByteStack
import Marshal.Proofs.TakingBack
import Marshal.Proofs.Refusals
import Marshal.Proofs.RouteTables
import Marshal.Proofs.Callbacks
import Marshal.Proofs.HandleRefinement
import Marshal.Proofs.Pipelining
import Marshal.Proofs.RouteIsolation
import Marshal.Proofs.Truncation
import Marshal.Proofs.Frames
import Marshal.Proofs.StableViews
import Marshal.Proofs.Rollback
import Marshal.Proofs.PartialArrays
import Marshal.Proofs.ArrayReads
import Marshal.Proofs.RawRegions
import Marshal.Proofs.ScalarArrays
import Marshal.Proofs.NameHashing
import Marshal.Proofs.StringReads
import Marshal.Proofs.TextDrain
import Marshal.Proofs.FailureTrails
import Marshal.Proofs.FailureLogs
import Marshal.Proofs.ArrayParts
import Marshal.Proofs.IntegerLayout
import Marshal.Proofs.TextWrites
