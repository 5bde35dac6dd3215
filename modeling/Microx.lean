import Microx.Lib.PyList
import Microx.Lib.PyDict
import Microx.Lib.Triple
import Microx.MemoryMap
import Microx.Memory
import Microx.Memory.Access
import Microx.Memory.Flat
import Microx.Memory.Holes
import Microx.Lib.Areas
import Microx.Lib.AreaShape
import Microx.Godefroid.Policies
import Microx.Godefroid.PolicyMap
import Microx.Godefroid.PolicyAccess
import Microx.Godefroid.DefaultPolicy
import Microx.Godefroid.ProgramData
import Microx.Godefroid.Outputs
import Microx.Godefroid.Inputs
import Microx.Godefroid.Sections
import Microx.Godefroid.SectionLoad
import Microx.Lib.Bits
import Microx.Reg
import Microx.Executor.State
import Microx.Executor.Read
import Microx.Executor.BitString
import Microx.Executor.Emulate
import Microx.Executor.Execute
import Microx.Executor.Phases
import Microx.Executor.Reads
import Microx.Executor.NoTrace
import Microx.Executor.Guard
import Microx.Binding
import Microx.Process
import Microx.CallbackValues
import Microx.EmptyThread
import Microx.Memory.Confined
import Microx.WriteSafety
import Microx.Lib.ByteMemory
import Microx.Executor.SubRegister
import Microx.Executor.RegisterFile
import Microx.Executor.Flat
import Microx.Executor.FlatRead
import Microx.Executor.FlatWrite
import Microx.Godefroid.Pointers
import Microx.Godefroid.Watermark
import Microx.Godefroid.StableInputs
import Microx.Godefroid.Process
import Microx.Memory.Shared
import Microx.Godefroid.Addresses
import Microx.Executor.Flags
import Microx.Executor.Loop
import Microx.Executor.Stack
import Microx.Executor.Nesting
import Microx.Executor.Frames
import Microx.Executor.Traffic
import Microx.Memory.Looking
import Microx.Godefroid.InputSpace
import Microx.ReadMemory
import Microx.Fetch
import Microx.Executor.PushPop
import Microx.Executor.SavedFlags
import Microx.Executor.WrittenFlags
import Microx.Executor.Rep
import Microx.Batching
import Microx.Rejected
import Microx.Executor.SideBySide
import Microx.Executor.Gathered
import Microx.Executor.StackAlias
import Microx.Executor.Borrowed
import Microx.Executor.Protocol
import Microx.Executor.MMX
import Microx.Godefroid.Evolution
import Microx.Godefroid.Confinement
import Microx.Godefroid.Start
import Microx.Godefroid.Runner
import Microx.Godefroid.Image
