import ByteKV.AofAppend

/-! Compaction: the rewrite child, one step at a time, and the parent's side of it
from `aof_rewrite_start` to `aof_rewrite_cron`. Sockets and log messages are left
out; each call that can fail takes its outcome from a record. -/
namespace ByteKV.AofRewrite
open Config Database HashTable FileIo AofRecord ServerState AofAppend

/-! The child. -/

structure ChildIo where
  opened : Bool := true
  writes : List WriteOutcome := []
  flushed : Bool := true

def childRecord (db : Db) (e : HtEntry Bytes) : Record :=
  match db.expires.get e.key with
  | some expire => ⟨.setex, e.key, e.val, expire⟩
  | none => ⟨.set, e.key, e.val, 0⟩

def childSkips (db : Db) (e : HtEntry Bytes) (realtimeMs : Int) : Bool :=
  match db.expires.get e.key with
  | some expire => expire < realtimeMs
  | none => false

def childOpen (realtimeMs : Int) (io : ChildIo) (disk : Disk) : ChildPhase × Disk :=
  if io.opened = false then (.exited 1, disk)
  else
    let (disk, ino) := disk.createTemp
    match disk.writeAll ino io.writes (aofFileHeader realtimeMs) with
    | (disk, false) => (.exited 1, disk)
    | (disk, true) => (.writing ino htIterCreate, disk)

/-- One round of the loop over the keyspace, or what follows the loop. -/
def childRound (realtimeMs : Int) (io : ChildIo) (db : Db) (ino : Nat) (iter : HtIter Bytes)
    (disk : Disk) : ChildPhase × Disk :=
  match htIterNext db.keyspace.raw iter with
  | (none, _) => if io.flushed then (.exited 0, disk.flush ino) else (.exited 1, disk)
  | (some e, iter) =>
      if childSkips db e realtimeMs then (.writing ino iter, disk)
      else match aofSerialize aofRecordMax (childRecord db e) with
        | none => (.exited 1, disk)
        | some buf =>
            match disk.writeAll ino io.writes buf with
            | (disk, false) => (.exited 1, disk)
            | (disk, true) => (.writing ino iter, disk)

/-- `aof_rewrite_child`, up to its next read of the clock. -/
def childStep (realtimeMs : Int) (io : ChildIo) (c : Child) (disk : Disk) : Child × Disk :=
  match c.phase with
  | .opening =>
      let (phase, disk) := childOpen realtimeMs io disk
      ({ c with phase := phase, clocks := c.clocks ++ [realtimeMs] }, disk)
  | .writing ino iter =>
      let (phase, disk) := childRound realtimeMs io c.db ino iter disk
      ({ c with phase := phase, clocks := c.clocks ++ [realtimeMs] }, disk)
  | _ => (c, disk)

/-! The parent. -/

/-- The loop of `aof_rewrite_record_failure`, `rounds` times at most. -/
def backoffDelay (max : Int) : (rounds : Nat) → (delay : Int) → Int
  | 0, delay => delay
  | rounds + 1, delay => if delay * 2 ≥ max then max else backoffDelay max rounds (delay * 2)

def aofRewriteRecordFailure (h : Host) : Host :=
  let streak := h.aofRewriteFailedStreak + 1
  let delay := backoffDelay h.config.aofRewriteBackoffMaxMs (streak - 1)
    h.config.aofRewriteBackoffBaseMs
  { h with
    aofRewritesFailed := h.aofRewritesFailed + 1
    aofRewriteFailedStreak := streak
    aofRewriteNextAttemptMs := h.nowMs + delay }

structure StartIo where
  malloced : Bool := true
  forked : Bool := true

/-- A successful fork, and what the parent does after it. -/
def forkChild (h : Host) : Host :=
  { h with
    child := some ⟨h.nextPid, h.db, h.appended.length, [], .opening, false⟩
    nextPid := h.nextPid + 1
    aofRewritePid := some h.nextPid
    aofRewriteState := .active
    aofRewriteLen := 0
    aofRewriteBuf := some ⟨h.aofRewriteCap, []⟩
    aofLastRewriteStartMs := h.nowMs }

def aofRewriteStart (io : StartIo) (h : Host) : Host × Bool :=
  if io.malloced = false then (aofRewriteRecordFailure h, false)
  else if io.forked = false then (aofRewriteRecordFailure h, false)
  else (forkChild h, true)

def aofRewriteCleanup (h : Host) : Host :=
  { h with
    aofRewriteBuf := none
    aofRewriteLen := 0
    aofRewritePid := none
    aofRewriteState := .idle }

structure FinalizeIo where
  opened : Bool := true
  writes : List WriteOutcome := []
  flushed : Bool := true
  reopened : Bool := true
  renamed : Bool := true
  statted : Bool := true
  unlinked : Bool := true

def unlinkTemp (ok : Bool) (h : Host) : Host :=
  if ok then { h with disk := h.disk.unlinkTemp } else h

/-- The label `fail` of `aof_rewrite_finalize`, and what the cron does when it
discards the temp file itself. -/
def discard (unlinked : Bool) (h : Host) : Host :=
  aofRewriteCleanup (aofRewriteRecordFailure (unlinkTemp unlinked h))

def install (statted : Bool) (ino : Nat) (h : Host) : Host :=
  let h := { h with disk := h.disk.renameTemp, aofFd := ino }
  let lastSize := if statted then (h.live.length : Int) else h.aofRewriteLastSize
  aofRewriteCleanup
    { h with
      aofRewriteLastSize := lastSize
      aofRewritesCompleted := h.aofRewritesCompleted + 1
      aofRewriteFailedStreak := 0
      aofRewriteNextAttemptMs := 0
      aofLastRewriteDurationMs := h.nowMs - h.aofLastRewriteStartMs }

/-- The descriptor of the second open refers to the inode of the first. -/
def aofRewriteFinalize (io : FinalizeIo) (h : Host) : Host :=
  match h.disk.temp, io.opened with
  | some ino, true =>
      match h.disk.writeAll ino io.writes h.diff with
      | (disk, false) => discard io.unlinked { h with disk := disk }
      | (disk, true) =>
          match durableFlush { h with disk := disk } ino io.flushed with
          | (h, false) => discard io.unlinked h
          | (h, true) =>
              if io.reopened = false then discard io.unlinked h
              else if io.renamed = false then discard io.unlinked h
              else install io.statted ino h
  | _, _ => discard io.unlinked h

inductive WaitResult
  | running
  | failed
  | reaped (phase : ChildPhase)

/-- waitpid(pid, &status, WNOHANG). It fails when there is no such child, which
`lost` makes of one that has terminated. -/
def waitpid (lost : Bool) (h : Host) : Host × WaitResult :=
  match h.child with
  | none => (h, .failed)
  | some c =>
      if c.phase.running then (h, .running)
      else ({ h with child := none }, if lost then .failed else .reaped c.phase)

structure CronIo where
  statted : Bool := true
  start : StartIo := {}
  lost : Bool := false
  finalize : FinalizeIo := {}

def afterWait (io : CronIo) : Host × WaitResult → Host
  | (h, .running) => h
  | (h, .failed) => aofRewriteCleanup (aofRewriteRecordFailure h)
  | (h, .reaped phase) =>
      if h.aofRewriteState = .aborting then discard io.finalize.unlinked h
      else match phase with
        | .exited 0 => aofRewriteFinalize io.finalize h
        | _ => discard io.finalize.unlinked h

/-- The part of `aof_rewrite_cron` for the state IDLE. -/
def maybeStart (io : CronIo) (h : Host) : Host :=
  if h.aofRewriteNextAttemptMs > 0 ∧ h.nowMs < h.aofRewriteNextAttemptMs then h
  else match h.disk.aof, io.statted with
    | some ino, true =>
        let size : Int := (h.disk.data ino).length
        if size < h.config.aofRewriteMinSize then h
        else
          let threshold := h.aofRewriteLastSize +
            (h.aofRewriteLastSize * h.config.aofRewriteGrowth).tdiv 100
          if size < threshold then h else (aofRewriteStart io.start h).1
    | _, _ => h

def aofRewriteCron (io : CronIo) (h : Host) : Host :=
  if h.config.aofEnabled = false then h
  else if h.nowMs - h.lastCheckMs < 1000 then h
  else
    let h := { h with lastCheckMs := h.nowMs }
    if h.aofRewriteState = .idle then maybeStart io h
    else afterWait io (waitpid io.lost h)

/-- The periodic flush of the pertick policy. -/
def aofCron (flushed : Bool) (h : Host) : Host :=
  if h.config.aofEnabled = false then h
  else if h.config.aofPolicy ≠ .pertick then h
  else if h.aofBufDirty = false then h
  else
    let intervalMs := (h.config.aofCheckHz * 1000).tdiv h.config.hz
    if h.nowMs - h.lastFsyncMs < intervalMs then h
    else match durableFlush { h with lastFsyncMs := h.nowMs } h.aofFd flushed with
      | (h, false) => h
      | (h, true) => { h with aofBufDirty := false }

theorem aofCron_cases (flushed : Bool) (h : Host) :
    aofCron flushed h = h ∨ aofCron flushed h = { h with lastFsyncMs := h.nowMs } ∨
      aofCron flushed h = { h with
        lastFsyncMs := h.nowMs
        disk := h.disk.flush h.aofFd
        aofTotalFsyncs := h.aofTotalFsyncs + 1
        aofBufDirty := false } := by
  unfold aofCron durableFlush
  split
  · exact Or.inl rfl
  · split
    · exact Or.inl rfl
    · split
      · exact Or.inl rfl
      · simp only
        split
        · exact Or.inl rfl
        · cases flushed with
          | false => exact Or.inr (Or.inl rfl)
          | true => exact Or.inr (Or.inr rfl)

end ByteKV.AofRewrite
