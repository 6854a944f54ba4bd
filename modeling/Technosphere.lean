import Technosphere.Transition
import Technosphere.Bytes
import Technosphere.Lines
import Technosphere.SharedMemory.Program
import Technosphere.SharedMemory.CString
import Technosphere.SharedMemory.Scan
import Technosphere.SharedMemory.Interleaving
import Technosphere.SharedMemory.Alone
import Technosphere.SharedMemory.Semaphores
import Technosphere.SharedMemory.Ownership
import Technosphere.SharedMemory.Ownership.Soundness
import Technosphere.SharedMemory.Ownership.Probes
import Technosphere.OpenAddressing.Table
import Technosphere.Emrakul.Record
import Technosphere.Emrakul.HashTableBase
import Technosphere.Emrakul.HashTableBase.Sequential
import Technosphere.Emrakul.HashTableBase.BoundedMap
import Technosphere.Emrakul.PosixHashTable
import Technosphere.Emrakul.PosixHashTable.Sequential
import Technosphere.Emrakul.PosixHashTable.Expiry
import Technosphere.Emrakul.PosixHashTable.Places
import Technosphere.Emrakul.PosixHashTable.Concurrent
import Technosphere.Emrakul.PosixHashTable.Isolation
import Technosphere.Emrakul.PosixHashTable.Uniqueness
import Technosphere.Emrakul.PosixHashTable.LostUpdate
import Technosphere.Emrakul.Degradation
import Technosphere.Emrakul.SynchronizedProcess
import Technosphere.Emrakul.UserCommand
import Technosphere.Emrakul.MasterProcess
import Technosphere.Emrakul.MasterProcess.ExactlyOnce
import Technosphere.Emrakul.ClientConnection
import Technosphere.LisonShell.CommandItem
import Technosphere.LisonShell.CmdInterperter
import Technosphere.LisonShell.Sequence
import Technosphere.Emrakul.Segments
import Technosphere.Emrakul.PosixHashTable.Locking
import Technosphere.Emrakul.SysVHashTable
import Technosphere.Emrakul.PosixHashTable.Collector
import Technosphere.SharedMemory.Ownership.Alone
import Technosphere.Emrakul.MasterProcess.FailedReceive
import Technosphere.LisonShell.RoundTrip
import Technosphere.Proxy.Connection
import Technosphere.LisonShell.Pipelines
import Technosphere.LisonShell.Interpreters
import Technosphere.LisonShell.Reaping
import Technosphere.Emrakul.RecordBytes
import Technosphere.Emrakul.ConnectionList
import Technosphere.Emrakul.HandOver
import Technosphere.Emrakul.PosixHashTable.TimeToLive
import Technosphere.Emrakul.QuotedArguments
import Technosphere.LisonShell.CommandLine
import Technosphere.LisonShell.ExitCodes
import Technosphere.LisonShell.KeptText
import Technosphere.LisonShell.Bounds
import Technosphere.LisonShell.Ledger
import Technosphere.LisonShell.Balance
import Technosphere.LisonShell.SkippedCommands
import Technosphere.LisonShell.Redirected
import Technosphere.Exponent
import Technosphere.Proxy.NiServer
import Technosphere.ForkJoin.Footprint
import Technosphere.QuickSort.Code
import Technosphere.QuickSort.Partition
import Technosphere.QuickSort.Sorting
import Technosphere.IStream
import Technosphere.OrderedMap
import Technosphere.Proxy.Selector
import Technosphere.Proxy.Routes
import Technosphere.Proxy.ProxyConf
import Technosphere.Proxy.ProxyListener
import Technosphere.Emrakul.HashTableBase.Replies
import Technosphere.Emrakul.MasterProcess.Answers
import Technosphere.Emrakul.PosixHashTable.Atomicity
import Technosphere.Emrakul.PosixHashTable.ProbeChains
import Technosphere.Emrakul.PosixHashTable.Replies
import Technosphere.Emrakul.PosixHashTable.Verdicts
import Technosphere.Emrakul.SysVHashTable.Atomicity
import Technosphere.Emrakul.Versions
import Technosphere.Emrakul.PosixHashTable.Termination
import Technosphere.Emrakul.SysVHashTable.Termination
import Technosphere.Emrakul.MasterProcess.Shutdown
import Technosphere.Emrakul.PosixHashTable.Provenance
import Technosphere.ForkJoin.Races
import Technosphere.LisonShell.Dataflow
import Technosphere.QuickSort.Races
import Technosphere.Exponent.Rounding
import Technosphere.Emrakul.CleaningCompany
import Technosphere.Emrakul.ServerProcess
import Technosphere.Proxy.Dialogue
import Technosphere.Proxy.Server
import Technosphere.ForkJoin.Work
import Technosphere.QuickSort.Work
