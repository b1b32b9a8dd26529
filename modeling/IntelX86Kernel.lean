import IntelX86Kernel.System
import IntelX86Kernel.Transition
import IntelX86Kernel.Effects
import IntelX86Kernel.QueueCalls
import IntelX86Kernel.ProcessCalls
import IntelX86Kernel.Moves
import IntelX86Kernel.Membership
import IntelX86Kernel.Stability
import IntelX86Kernel.Congruential
import IntelX86Kernel.Bindings
import IntelX86Kernel.HashCalls
import IntelX86Kernel.SharedUse
import IntelX86Kernel.SharedKeys
import IntelX86Kernel.Allocation
import IntelX86Kernel.QueueTable
import IntelX86Kernel.Idle
import IntelX86Kernel.Assertions
import IntelX86Kernel.Priority
import IntelX86Kernel.Waiting
import IntelX86Kernel.Reports
import IntelX86Kernel.Lineage
import IntelX86Kernel.Tree
import IntelX86Kernel.Pstree
import IntelX86Kernel.WaitedFor
import IntelX86Kernel.TypedLines
import IntelX86Kernel.ConsoleOutput
import IntelX86Kernel.Forest
import IntelX86Kernel.QueueFifo
import IntelX86Kernel.StartCall
import IntelX86Kernel.Blocks
import IntelX86Kernel.Priorities
import IntelX86Kernel.Election
import IntelX86Kernel.NearlySorted
import IntelX86Kernel.ReadyOrder
import IntelX86Kernel.Rotation
import IntelX86Kernel.Reaping
import IntelX86Kernel.ByteMemory
import IntelX86Kernel.Machine
import IntelX86Kernel.ContextSwitch
import IntelX86Kernel.DoublyLinked
import IntelX86Kernel.StablePriority
import IntelX86Kernel.LinkedQueue
import IntelX86Kernel.Capacity
import IntelX86Kernel.StartReturn
import IntelX86Kernel.Waiters
import IntelX86Kernel.Wakeups
import IntelX86Kernel.Deliveries
import IntelX86Kernel.FullBuffer
import IntelX86Kernel.Arguments
import IntelX86Kernel.Sleepers
import IntelX86Kernel.Clock
import IntelX86Kernel.FreeChildren
import IntelX86Kernel.KilledWaiters
import IntelX86Kernel.FailingCreate
import IntelX86Kernel.QueueMemory
import IntelX86Kernel.BufferFaults
import IntelX86Kernel.Deletions
import IntelX86Kernel.Interruptions
import IntelX86Kernel.Scrolling
import IntelX86Kernel.Backspace
import IntelX86Kernel.ClockDisplay
import IntelX86Kernel.Descriptors
import IntelX86Kernel.Div64
import IntelX86Kernel.LookupEnds
import IntelX86Kernel.FailedUpdates
import IntelX86Kernel.TableRoom
import IntelX86Kernel.EarlyMm
import IntelX86Kernel.PageTables
import IntelX86Kernel.Printing
import IntelX86Kernel.KeyboardInterrupts
import IntelX86Kernel.GdbDebugger
import IntelX86Kernel.GdbRoundTrips
import IntelX86Kernel.Exceptions
import IntelX86Kernel.TrapScreen
