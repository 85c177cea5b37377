import Apogee.Soundness.MulDiv
import Apogee.Soundness.JumpBranchSlt
import Apogee.Soundness.ShiftBitwise
import Apogee.Program.Row
import Apogee.Soundness.AddSub
import Apogee.Soundness.MemSubword
import Apogee.Soundness.Atomics
import Apogee.Memory.Boundary
import Apogee.Gkr.Soundness
import Apogee.Soundness.MemWord
import Apogee.Verifier.Coverage
import Apogee.Verifier.Block
import Apogee.Circuit.Wire
import Apogee.Verifier.Binding
import Apogee.Verifier.RoundTrip
import Apogee.Gkr.Flat
import Apogee.Soundness.FieldCells
import Apogee.Soundness.ModMul
import Apogee.Soundness.FqRow
import Apogee.Soundness.FrArith
import Apogee.Prover.Transparent
import Apogee.Stateless.Served
import Apogee.Mpt.Hostile
import Apogee.Circuit.Stored
import Apogee.Mpt.Reencode
import Apogee.Circuit.MemoryRules
import Apogee.Gkr.Provenance
import Apogee.Math.Dialogue
import Apogee.Mpt.Size
import Apogee.Recorder.BlockWitness
import Apogee.Recorder.Existence
import Apogee.Loader.Elf
import Apogee.Loader.ImageWire
import Apogee.Math.Taylor
import Apogee.Math.Text
import Apogee.Math.Tiling
import Apogee.Recursion.Tree
import Apogee.Recursion.Plan
import Apogee.Stateless.Exponential
import Apogee.Stateless.HeaderArithmetic
import Apogee.Rlp.Bounds
import Apogee.Rlp.Values
import Apogee.Rlp.Canonical
import Apogee.Rlp.Lengths
import Apogee.Rlp.Codec
import Apogee.Rlp.HeaderCodec
import Apogee.Stateless.Transaction
import Apogee.Math.CurveLadder
import Apogee.Stateless.CurvePoints
import Apogee.Stateless.Messages
import Apogee.Stateless.TransactionExact
import Apogee.Math.Multilinear
import Apogee.Poly.Backing
import Apogee.Poly.Refines
import Apogee.Zerocheck.Exact
import Apogee.Field
import Apogee.Field.Kernel
import Apogee.Field.KernelExact
import Apogee.Curve.Fq2
import Apogee.Curve.Groups
import Apogee.Curve.Msm
import Apogee.Curve.MsmSum
import Apogee.Math.LastWrite
import Apogee.Recursion.Split
import Apogee.Trace.Recorded
import Apogee.Loader.Sweep
import Apogee.Recursion.Native
import Apogee.Recursion.NativeExecutor
import Apogee.Program.Decode
import Apogee.Program.Reencode
import Apogee.Soundness.Range16
import Apogee.Program.Partition
import Apogee.Recursion.RangeChecks
import Apogee.Math.Hex
import Apogee.Verifier.ProofArchive
