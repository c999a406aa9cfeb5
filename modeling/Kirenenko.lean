import Kirenenko.Smt.Term
import Kirenenko.Smt.Sorted
import Kirenenko.Llvm.Integer
import Kirenenko.Lib.Chain
import Kirenenko.Runtime.Operators
import Kirenenko.Runtime.LabelTable
import Kirenenko.Runtime.Serialize
import Kirenenko.Lib.Simulation
import Kirenenko.Runtime.Denotation
import Kirenenko.Runtime.NodeTerm
import Kirenenko.Runtime.TermCongruence
import Kirenenko.Runtime.SerializeFrame
import Kirenenko.Runtime.SerializeCache
import Kirenenko.Runtime.SerializeSound
import Kirenenko.Lib.Run
import Kirenenko.Runtime.TableInvariant
import Kirenenko.Runtime.UnionSpec
import Kirenenko.Runtime.HashConsing
import Kirenenko.Lib.LittleEndian
import Kirenenko.Runtime.Denotes
import Kirenenko.Runtime.DenotesNode
import Kirenenko.Runtime.ShadowMemory
import Kirenenko.Runtime.LoadPaths
import Kirenenko.Runtime.ConcatChain
import Kirenenko.Runtime.LoadSemantics
import Kirenenko.Runtime.PartialLoad
import Kirenenko.Runtime.StoreLoad
import Kirenenko.Runtime.RoundTrip
import Kirenenko.Runtime.Solver
import Kirenenko.Runtime.SolverSpec
import Kirenenko.Runtime.SolveOutcome
import Kirenenko.Runtime.Slicing
import Kirenenko.Runtime.GeneratedInput
import Kirenenko.Runtime.PathConstraints
import Kirenenko.Runtime.TraceEvents
import Kirenenko.Runtime.PathRuns
import Kirenenko.Runtime.TaintFile
import Kirenenko.Lib.Cells
import Kirenenko.Lib.Bytes
import Kirenenko.Runtime.InputWrappers
import Kirenenko.Runtime.InputLabels
import Kirenenko.Runtime.IndexSafety
import Kirenenko.Runtime.TraceSafety
import Kirenenko.Runtime.LabelBounds
import Kirenenko.Runtime.HandOver
import Kirenenko.Pass.Shadows
import Kirenenko.Pass.TermValue
import Kirenenko.Pass.NodeValue
import Kirenenko.Pass.Agreement
import Kirenenko.Pass.NodeSort
import Kirenenko.Pass.WellSorted
import Kirenenko.Runtime.LoadWidth
import Kirenenko.Runtime.WholeLabel
import Kirenenko.Runtime.BreakUp
import Kirenenko.Runtime.Memcmp
import Kirenenko.Runtime.MemcmpRuns
import Kirenenko.Runtime.StringCompare
import Kirenenko.Runtime.Offsets
import Kirenenko.Runtime.DepsExact
import Kirenenko.Runtime.HasLabel
import Kirenenko.Runtime.MappedFile
import Kirenenko.Runtime.CopyWrappers
import Kirenenko.Runtime.HeapWrappers
import Kirenenko.Runtime.LoadProgress
import Kirenenko.Runtime.Memset
import Kirenenko.Runtime.CurrentTerm
import Kirenenko.Runtime.Seek
import Kirenenko.Runtime.StatRuns
import Kirenenko.Runtime.Utmp
import Kirenenko.Runtime.DepsBound
import Kirenenko.Runtime.BranchDeps
import Kirenenko.Runtime.ShadowMapping
import Kirenenko.Runtime.Arena
import Kirenenko.Lib.Records
import Kirenenko.Pin.LogBuf
import Kirenenko.Pin.Logger
import Kirenenko.Pin.LogEntries
import Kirenenko.Pin.LogRecords
import Kirenenko.Pin.LogConsistency
import Kirenenko.Pin.CondIdentity
import Kirenenko.Lib.Probing
import Kirenenko.Pass.InstructionId
import Kirenenko.Lib.CallStack
import Kirenenko.Pass.ContextRecording
import Kirenenko.Pass.FnContext
import Kirenenko.Pass.CustomAbi
import Kirenenko.Runtime.StrtoWrappers
import Kirenenko.Lib.ControlFlow
import Kirenenko.Lib.Machine
import Kirenenko.Pass.Ir
import Kirenenko.Pass.LabelFlow
import Kirenenko.Pass.TaintVisitor
import Kirenenko.Pass.Instrumented
import Kirenenko.Pass.VisitOrder
import Kirenenko.Pass.EmittedCode
import Kirenenko.Pass.Tracking
import Kirenenko.Pass.InstRefinement
import Kirenenko.Pass.FrameRefinement
import Kirenenko.Pass.Refinement
import Kirenenko.Pass.Transparency
import Kirenenko.Pass.SoundTable
import Kirenenko.Pass.MemoryAgreement
import Kirenenko.Pass.TaggedSteps
import Kirenenko.Pass.IrTyping
import Kirenenko.Pass.ConcolicInsts
import Kirenenko.Pass.ConcolicRuns
import Kirenenko.Runtime.PlainTerms
import Kirenenko.Pass.SolverReaction
import Kirenenko.Pass.PathSoundness
import Kirenenko.Pass.FlippedBranch
