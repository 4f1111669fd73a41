import Multithreading.Stack.LinkedOwnership
import Multithreading.Stack.LinkedConsumers
import Multithreading.Stack.BufferedStack
import Multithreading.Stack.BufferedRefinement
import Multithreading.Stack.BufferedOccupancy
import Multithreading.Stack.SingleThread
import Multithreading.Stack.ShmAtomics
import Multithreading.Stack.SpscProgram
import Multithreading.Stack.RetryLoops
import Multithreading.Stack.Exceptions
import Multithreading.Sync.LatchWorkers
import Multithreading.Sync.CVLockCounter
import Multithreading.Sync.WorkerShutdown
import Multithreading.Sync.WorkerOrder
import Multithreading.Sync.WorkerThrow
import Multithreading.Sync.Spinlock
import Multithreading.Sync.Cas
import Multithreading.Sync.RaceCondition
import Multithreading.Sync.Deadlock
import Multithreading.Sync.DataManager
import Multithreading.Sync.ProtectedData
import Multithreading.Sync.Barrier
import Multithreading.Sync.Future
import Multithreading.Process.ForkFd
import Multithreading.Process.ExecFd
import Multithreading.Ipc.HandshakeAccess
import Multithreading.Ipc.HandshakeRestart
import Multithreading.Ipc.MessageQueueLaw
import Multithreading.Ipc.Encoding
import Multithreading.Ipc.RelayLaw
import Multithreading.Ipc.RelayEnd
import Multithreading.Ipc.Sema
import Multithreading.Ipc.Signals
import Multithreading.Pool.Shutdown
