import ByteKV.AofRecord
import ByteKV.FileIo

/-! The state the persistence layer works on: the fields of `server_t` it reads and
writes, the disk, and the rewrite child. Clients and the listener are not part of
it. `appended`, `mark` and `clocks` are history variables that no function reads. -/
namespace ByteKV.ServerState
open Config Database HashTable FileIo AofRecord

inductive AofRewriteState
  | idle
  | active
  | aborting
  deriving DecidableEq, Repr

/-- An allocation and what has been copied into it. -/
structure DiffBuf where
  alloc : Nat
  data : Bytes
  deriving DecidableEq, Repr

inductive ChildPhase
  | opening
  | writing (ino : Nat) (iter : HtIter Bytes)
  | exited (status : Nat)
  | killed

def ChildPhase.running : ChildPhase → Bool
  | .opening | .writing _ _ => true
  | _ => false

/-- The forked process: its copy of the database and how far it has come. `mark`
is the number of records appended to the log before the fork, and `clocks` what
the child has read off the clock. -/
structure Child where
  pid : Nat
  db : Db
  mark : Nat
  clocks : List Int
  phase : ChildPhase
  sigterm : Bool

/-- `server_t`; `aofFd` is the inode the descriptor is bound to, and the last
two times are the static variables of the two cron functions. -/
structure Server where
  config : ServerConfig
  cronloops : Nat
  db : Db
  nowMs : Int
  nowRealtimeMs : Int
  aofFd : Nat
  aofBufDirty : Bool
  aofRewriteState : AofRewriteState
  aofRewritePid : Option Nat
  aofRewriteBuf : Option DiffBuf
  aofRewriteLen : Nat
  aofRewriteCap : Nat
  aofRewriteLastSize : Int
  aofTotalWrites : Nat
  aofTotalFsyncs : Nat
  aofRewritesCompleted : Nat
  aofRewritesFailed : Nat
  aofLastRewriteStartMs : Int
  aofLastRewriteDurationMs : Int
  aofRewriteFailedStreak : Nat
  aofRewriteNextAttemptMs : Int
  lastFsyncMs : Int
  lastCheckMs : Int
  elStop : Bool

/-- The server together with what it acts on. `pipe` counts the unread bytes of
the shutdown pipe, and `exited` is set once the event loop has ended. -/
structure Host extends Server where
  disk : Disk
  child : Option Child
  nextPid : Nat
  pipe : Nat
  exited : Bool
  appended : List Record

def Host.diff (h : Host) : Bytes :=
  ((h.aofRewriteBuf.map DiffBuf.data).getD []).take h.aofRewriteLen

/-- The bytes of the file the server appends to. -/
def Host.live (h : Host) : Bytes := h.disk.data h.aofFd

/-- The file under the name of the log, which a restart will load. -/
def Host.file (h : Host) : Option Bytes := h.disk.aof.map h.disk.data

end ByteKV.ServerState
