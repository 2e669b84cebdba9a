import SystemsPrep.Base.Exec
import SystemsPrep.Base.Window
import SystemsPrep.Base.Linearizable
import SystemsPrep.Base.Simulation
import SystemsPrep.Base.Fair
import SystemsPrep.Spsc.Fifo
import SystemsPrep.Spsc.Ownership
import SystemsPrep.Spsc.BufferSize
import SystemsPrep.Spsc.Justified
import SystemsPrep.Spsc.Batch
import SystemsPrep.Spsc.Alone
import SystemsPrep.Spsc.Size
import SystemsPrep.Spsc.WaitFree
import SystemsPrep.Spsc.Clients
import SystemsPrep.Spsc.Termination
import SystemsPrep.Spsc.Linearizable
import SystemsPrep.Mpsc.Refusal
import SystemsPrep.Mpsc.Delivery
import SystemsPrep.Mpsc.Ownership
import SystemsPrep.Mpsc.Exceptions
import SystemsPrep.Mpsc.Wrap
import SystemsPrep.Mpsc.Size
import SystemsPrep.Mpsc.Linearizable
import SystemsPrep.Mpsc.LockFree
import SystemsPrep.Mpsc.Clients
import SystemsPrep.Mpsc.Termination
import SystemsPrep.Base.Diamond
import SystemsPrep.InProc.Schedule
import SystemsPrep.InProc.Channels
import SystemsPrep.InProc.Calls
import SystemsPrep.InProc.Wakeups
import SystemsPrep.InProc.Refinement
import SystemsPrep.InProc.Completion
import SystemsPrep.Dma.Moves
import SystemsPrep.Dma.Submission
import SystemsPrep.Dma.Interrupts
import SystemsPrep.Dma.Order
import SystemsPrep.Dma.MemoryLaw
import SystemsPrep.Dma.Completion
import SystemsPrep.Dma.Coalescing
import SystemsPrep.Dma.EndToEnd
import SystemsPrep.Dma.Overrun
import SystemsPrep.Dma.Teardown
import SystemsPrep.Dma.Lifetime
import SystemsPrep.Dma.Process
import SystemsPrep.Dma.Registers
import SystemsPrep.Dma.Drain
import SystemsPrep.Dma.Wait
import SystemsPrep.Dma.Liveness
import SystemsPrep.Dma.Loopback
import SystemsPrep.Dma.ProbeOutcome
import SystemsPrep.Dma.ProbeProgress
import SystemsPrep.Dma.Reprobe
