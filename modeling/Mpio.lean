import Mpio.Lib.Run
import Mpio.Lib.Memory
import Mpio.Lib.RefCount
import Mpio.StreamBuffer.Model
import Mpio.StreamBuffer.Invariant
import Mpio.StreamBuffer.Safety
import Mpio.Wavy.Finalize
import Mpio.Wavy.Execute
import Mpio.Wavy.Stream
import Mpio.Lib.Pool
import Mpio.Wavy.Loop.Step
import Mpio.Wavy.Loop.Poll
import Mpio.Wavy.Loop.Registry
import Mpio.Wavy.Loop.Removal
import Mpio.Wavy.Loop.Pending
import Mpio.Wavy.Loop.Delivery
import Mpio.Wavy.Loop.Ledger
import Mpio.Wavy.Loop.Dispatch
import Mpio.Wavy.Encoding
import Mpio.Wavy.Refinement
import Mpio.Wavy.Sendfile
import Mpio.Wavy.Paths
import Mpio.Wavy.Gap
import Mpio.Wavy.Reuse
import Mpio.Wavy.Loop.Sole
import Mpio.Lib.Fifo
import Mpio.Wavy.Mutex.Model
import Mpio.Wavy.Mutex.Step
import Mpio.Wavy.Mutex.Taken
import Mpio.Wavy.Mutex.Flush
import Mpio.SharedBuffer.Model
import Mpio.SharedBuffer.Safety
import Mpio.SparseArray.Model
import Mpio.SparseArray.Refinement
import Mpio.Growth
import Mpio.Wavy.Connect
import Mpio.StreamBuffer.Retain
import Mpio.Ownership
import Mpio.Wavy.Loop.Stop
import Mpio.Wavy.Empty
import Mpio.Wavy.Mutex.Alone
import Mpio.Wavy.Mutex.Solo
import Mpio.Wavy.Mutex.Progress
import Mpio.Wavy.Compact
import Mpio.Lib.Ledger
import Mpio.Wavy.Listen
import Mpio.Wavy.Timer
import Mpio.Wavy.Registration
import Mpio.Wavy.Arm
import Mpio.Lib.Scope
import Mpio.Signal
import Mpio.Wavy.Xident
import Mpio.Wavy.Epoll
import Mpio.Wavy.Lifecycle
import Mpio.Wavy.Loop.End
import Mpio.Forward
import Mpio.Lib.Locks
import Mpio.Wavy.Reentry
import Mpio.Wavy.Loop.Drain
import Mpio.Wavy.Loop.Failure
import Mpio.Guard
import Mpio.Wavy.Drain
import Mpio.Wavy.Loop.Fetch
import Mpio.Wavy.Service.Coupled
import Mpio.Wavy.Service.Drain
import Mpio.Wavy.Reopen
