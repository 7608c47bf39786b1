import ByteKV.BigEndian
import ByteKV.Transition
import ByteKV.ExpiringLog
import ByteKV.CString
import ByteKV.ShiftRegister
import ByteKV.Crc64
import ByteKV.HashTable
import ByteKV.HashMap
import ByteKV.Database
import ByteKV.ActiveSweep
import ByteKV.FileIo
import ByteKV.Config
import ByteKV.AofRecord
import ByteKV.PrefixCode
import ByteKV.AofLoad
import ByteKV.Recovery
import ByteKV.LoadRounds
import ByteKV.BurstError
import ByteKV.UntrustedLog
import ByteKV.ServerState
import ByteKV.AofAppend
import ByteKV.AofRewrite
import ByteKV.Words
import ByteKV.CommandLine
import ByteKV.ConfigFile
import ByteKV.Command
import ByteKV.ServerRun
import ByteKV.StepCases
import ByteKV.RewriteInvariant
import ByteKV.StoreInvariant
import ByteKV.LogInvariant
import ByteKV.LogTracking
import ByteKV.Restart
import ByteKV.BackgroundJob
import ByteKV.RewriteStates
import ByteKV.RewriteReaping
import ByteKV.Compaction
import ByteKV.Durability
import ByteKV.Capacity
import ByteKV.Framing
import ByteKV.Networking
import ByteKV.Connection
import ByteKV.FramedInput
import ByteKV.Delivery
import ByteKV.OutputQueue
import ByteKV.SlowReader
import ByteKV.Chunking
import ByteKV.EventLoop
import ByteKV.ConnectionTable
import ByteKV.TimeoutSweep
import ByteKV.MapRefinement
import ByteKV.TwoTables
import ByteKV.Visibility
import ByteKV.StoredValue
import ByteKV.TtlArithmetic
import ByteKV.Shutdown
import ByteKV.PowerLoss
import ByteKV.LogHandover
import ByteKV.TableIterator
import ByteKV.CleanFlag
import ByteKV.ExpireCycle
import ByteKV.RewriteBackoff
import ByteKV.HeapTable
import ByteKV.AllocFailure
import ByteKV.TruncatedTail
import ByteKV.LiveKeys
import ByteKV.ConfigMeaning
import ByteKV.Tokenizer
import ByteKV.Emission
import ByteKV.ExpiringStore
import ByteKV.RequestSpec
import ByteKV.FrameStream
import ByteKV.Accounting
import ByteKV.Server
import ByteKV.Linearizability
import ByteKV.PythonClient
import ByteKV.Lockstep
import ByteKV.Progress
import ByteKV.Responsiveness
import ByteKV.Journal
import ByteKV.Lifetimes
import ByteKV.CrashRecovery
import ByteKV.LossWindow
import ByteKV.HeapProgram
import ByteKV.TableMemory
import ByteKV.TableLayout
import ByteKV.DatabaseMemory
import ByteKV.SweepMemory
import ByteKV.MemorySafety
