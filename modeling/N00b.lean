import N00b.Adts.Allocation
import N00b.Adts.Buffer
import N00b.Adts.BufferCapacity
import N00b.Adts.BufferFind
import N00b.Adts.ByteRing
import N00b.Adts.Duration
import N00b.Adts.DurationOrder
import N00b.Adts.HexLiterals
import N00b.Adts.IntLiterals
import N00b.Adts.ListCapacity
import N00b.Adts.ListRemoveItem
import N00b.Adts.ListSlots
import N00b.Adts.SizeLiterals
import N00b.Adts.SizeRepr
import N00b.Adts.TimeOffsets
import N00b.Adts.TreeWalk
import N00b.Codegen.Backpatch
import N00b.Codegen.ContainerFor
import N00b.Codegen.Depth
import N00b.Codegen.Emit
import N00b.Codegen.EntryPoints
import N00b.Codegen.Exits
import N00b.Codegen.Expr
import N00b.Codegen.ExprCorrect
import N00b.Codegen.ExprSem
import N00b.Codegen.Frame
import N00b.Codegen.Jumps
import N00b.Codegen.Layout
import N00b.Codegen.LoopCode
import N00b.Codegen.LoopVars
import N00b.Codegen.ModuleCode
import N00b.Codegen.RangedFor
import N00b.Codegen.StackNeutral
import N00b.Codegen.Stmt
import N00b.Core.Builtin
import N00b.Gc.AllocLoop
import N00b.Gc.Blocks
import N00b.Gc.BlocksSound
import N00b.Gc.Collect
import N00b.Gc.Registry
import N00b.Gc.ToSpace
import N00b.Gc.WorkList
import N00b.Hatrack.Common
import N00b.Hatrack.Crown
import N00b.Hatrack.CrownMap
import N00b.Hatrack.CrownRefhat
import N00b.Hatrack.CrownShift
import N00b.Hatrack.CrownShiftRuns
import N00b.Hatrack.CrownStore
import N00b.Hatrack.Dict
import N00b.Hatrack.DictMap
import N00b.Hatrack.LlStack
import N00b.Hatrack.LlStackInvariant
import N00b.Hatrack.LlStackItems
import N00b.Hatrack.LlStackProgress
import N00b.Hatrack.LlStackRuns
import N00b.Hatrack.OrderedMap
import N00b.Hatrack.Refhat
import N00b.Hatrack.RefhatMap
import N00b.Hatrack.Ring
import N00b.Hatrack.RingFifo
import N00b.Hatrack.Stack
import N00b.Hatrack.StackLifo
import N00b.Io.LineBuffering
import N00b.Lib.Block
import N00b.Lib.Buckets
import N00b.Lib.Intern
import N00b.Lib.Linearization
import N00b.Lib.Lines
import N00b.Lib.LinkedList
import N00b.Lib.Loop
import N00b.Lib.Neighborhood
import N00b.Lib.OpTree
import N00b.Lib.Placement
import N00b.Lib.Probing
import N00b.Lib.Region
import N00b.Lib.Runs
import N00b.Lib.SignTree
import N00b.Lib.Splits
import N00b.Lib.Trace
import N00b.Lib.Utf8
import N00b.Marshal.Chunks
import N00b.Marshal.Decode
import N00b.Marshal.Framing
import N00b.Marshal.Heap
import N00b.Marshal.Message
import N00b.Marshal.Opening
import N00b.Marshal.Patches
import N00b.Marshal.Pickle
import N00b.Marshal.Pointers
import N00b.Marshal.Queue
import N00b.Marshal.RoundTrip
import N00b.Marshal.Segments
import N00b.Marshal.Unpickle
import N00b.Memory.Layout
import N00b.Memory.StaticLayout
import N00b.Memory.StaticPool
import N00b.Mt.Accounting
import N00b.Mt.Invariant
import N00b.Mt.Locking
import N00b.Mt.Mutex
import N00b.Mt.RwExclusion
import N00b.Mt.RwLock
import N00b.Mt.Unlocking
import N00b.Ncpp.CTokens
import N00b.Ncpp.Once
import N00b.Ncpp.Partition
import N00b.Ncpp.Tokenize
import N00b.Parse.Context
import N00b.Parse.Expression
import N00b.Parse.Precedence
import N00b.Parse.Signs
import N00b.Text.Escape
import N00b.Text.IntFormats
import N00b.Text.IntGrouping
import N00b.Text.Split
import N00b.Text.Strings
import N00b.Text.Truncate
import N00b.Text.Unescape
import N00b.Util.GoptFlags
import N00b.Util.Nullability
import N00b.Util.Path
import N00b.Util.TokenStream
import N00b.Vm.AttrStore
import N00b.Vm.Block
import N00b.Vm.Calls
import N00b.Vm.Integers
import N00b.Vm.Machine
import N00b.Vm.Operands
import N00b.Vm.Views
