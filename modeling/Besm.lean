import Besm.Lib.Transition
import Besm.Lib.LittleEndian
import Besm.Lib.Encoding
import Besm.Lib.Masks
import Besm.Lib.Rotation
import Besm.Util.Range
import Besm.Util.Intervals
import Besm.Util.MaskedBits
import Besm.Decoder.Decoder
import Besm.Decoder.Selection
import Besm.Decoder.Immediates
import Besm.Exec.Gprf
import Besm.Exec.Csrf
import Besm.Exec.BasicBlock
import Besm.Exec.Fetches
import Besm.Memory.Interface
import Besm.Sim.Hart
import Besm.Sim.Effects
import Besm.Sim.Interpreter
import Besm.Sim.Blocks
import Besm.Memory.Flat
import Besm.Sim.Refinement
import Besm.Sim.Steps
import Besm.Sim.Traps
import Besm.Sim.Isolation
import Besm.Util.Math
import Besm.Memory.Host
import Besm.Memory.Ram
import Besm.Memory.PageAddresses
import Besm.Memory.Pages
import Besm.Memory.RamSpec
import Besm.Memory.Allocation
import Besm.Memory.Containment
import Besm.Memory.PhysMem
import Besm.Memory.Devices
import Besm.Memory.Mapping
import Besm.Memory.Wiring
import Besm.Memory.Contents
import Besm.Memory.Acceptance
import Besm.Memory.History
import Besm.Memory.Lawful
import Besm.Memory.Counting
import Besm.Memory.ContArea
import Besm.Memory.Spilling
import Besm.Memory.Prefetcher
import Besm.Memory.Fetching
import Besm.Sim.Alignment
import Besm.Sim.Jumps
import Besm.Sim.Frame
import Besm.Sim.Privillege
import Besm.Sim.Cursor
import Besm.Sim.Fences
import Besm.Sim.Accounting
import Besm.Sim.Arithmetic
import Besm.Sim.Shifts
import Besm.Sim.Words
import Besm.Decoder.Fields
import Besm.Sim.Accesses
import Besm.Exec.Fields
import Besm.Exec.Structures
import Besm.Sim.Zicsr
import Besm.Sim.Warl
import Besm.Sim.Returns
import Besm.Sim.Vectors
import Besm.Sim.Retention
import Besm.Sim.Assembly
import Besm.Util.Turns
import Besm.Util.Replacement
import Besm.Util.Counters
import Besm.Util.Fifo
import Besm.Lib.Lockstep
import Besm.Memory.Alike
import Besm.Memory.Stack
import Besm.Sim.Lockstep
import Besm.Sim.Progress
import Besm.Sim.Stack
import Besm.Util.ElfParser
import Besm.Memory.Loader
import Besm.Standalone.Trace
import Besm.Standalone.TraceFile
import Besm.Lib.Numeral
import Besm.Standalone.Options
import Besm.Sim.Machine
import Besm.Lib.Hoare
import Besm.Sim.Programs
import Besm.E2eTest.Mult
import Besm.Sim.Halting
import Besm.Standalone.Main
import Besm.Lib.Multimap
import Besm.Sim.Hooks
import Besm.Memory.Footprint
import Besm.Sim.Footprint
import Besm.Sim.Registers
import Besm.E2eTest.Bootstrap
import Besm.Sim.Seen
import Besm.Sim.Beside
import Besm.Sim.Uncached
