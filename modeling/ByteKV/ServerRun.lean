import ByteKV.AofLoad
import ByteKV.Command
import ByteKV.Transition

/-! The server as a state machine: `init_server` without its sockets, and one event
at a time after that. Requests, ticks of the event loop, and steps of the rewrite
child come in any order; a request is a whole payload, whoever sent it. -/
namespace ByteKV.ServerRun
open Config Database FileIo AofRecord AofLoad ServerState AofAppend AofRewrite Command

structure BootIo where
  junk : Bytes
  clock : Nat → Int
  load : LoadIo := {}
  opened : Bool := true
  statted : Bool := true
  headerWrites : List WriteOutcome := []
  restatted : Bool := true

/-- `server` as `init_server` leaves it before it looks at the log. -/
def emptyHost (config : ServerConfig) (disk : Disk) (nowMs nowRealtimeMs : Int) : Host where
  config := config
  cronloops := 0
  db := dbCreate nowMs
  nowMs := nowMs
  nowRealtimeMs := nowRealtimeMs
  aofFd := 0
  aofBufDirty := false
  aofRewriteState := .idle
  aofRewritePid := none
  aofRewriteBuf := none
  aofRewriteLen := 0
  aofRewriteCap := aofRecordMax * 64
  aofRewriteLastSize := 0
  aofTotalWrites := 0
  aofTotalFsyncs := 0
  aofRewritesCompleted := 0
  aofRewritesFailed := 0
  aofLastRewriteStartMs := 0
  aofLastRewriteDurationMs := 0
  aofRewriteFailedStreak := 0
  aofRewriteNextAttemptMs := 0
  lastFsyncMs := 0
  lastCheckMs := 0
  elStop := false
  disk := disk
  child := none
  nextPid := 0
  pipe := 0
  exited := false
  appended := []

/-- `none` is EXIT_FAILURE, or a load that overran its buffers. -/
def replayAof (io : BootIo) (h : Host) : Option Host :=
  match aofLoad (h.disk.aof.map h.disk.data) h.db io.clock io.junk io.load with
  | .fresh => some h
  | .loaded out =>
      some { h with db := out.db, disk := (h.disk.aof.elim h.disk (h.disk.truncateTo · out.file)) }
  | _ => none

/-- open_aof, and the header of a file that is empty. -/
def openLog (io : BootIo) (realtimeMs : Int) (h : Host) : Option Host :=
  if io.opened = false then none
  else
    let (disk, ino) := h.disk.openAof
    let h := { h with disk := disk, aofFd := ino }
    if io.statted = false then some h
    else
      let header := if h.live = [] then aofFileHeader realtimeMs else []
      match h.disk.writeAll ino io.headerWrites header with
      | (_, false) => none
      | (disk, true) =>
          let h := { h with disk := disk }
          some (if io.restatted then { h with aofRewriteLastSize := h.live.length } else h)

def initServer (config : ServerConfig) (disk : Disk) (nowMs nowRealtimeMs realtimeMs : Int)
    (io : BootIo) : Option Host :=
  let h := emptyHost config disk nowMs nowRealtimeMs
  if config.aofEnabled then (replayAof io h).bind (openLog io realtimeMs) else some h

def firstBoot : BootIo := { junk := [], clock := fun _ => 0 }

def firstHost (config : ServerConfig) : Host :=
  (initServer config .blank 0 0 0 firstBoot).getD (emptyHost config .blank 0 0)

theorem firstHost_boot (config : ServerConfig) :
    initServer config .blank 0 0 0 firstBoot = some (firstHost config) := by
  obtain ⟨h, boot⟩ : ∃ h, initServer config .blank 0 0 0 firstBoot = some h := by
    unfold initServer
    split
    · exact ⟨_, rfl⟩
    · exact ⟨_, rfl⟩
  rw [firstHost, boot, Option.getD_some]

/-- Keys whose deadline has passed are deleted only when they are read. -/
def lazyConfig : ServerConfig := { activeExpireEnabled := false }

/-! before_sleep. -/

/-- One sweep: the buckets it draws, and the clock behind it. -/
structure SweepRound where
  draws : List Nat
  nowMs : Int

structure TickIo where
  rounds : List SweepRound := []
  released : Bytes → Bytes := id
  flushed : Bool := true
  cron : CronIo := {}

def activeExpireLoop (released : Bytes → Bytes) (start budgetMs : Int) :
    List SweepRound → (current : Int) → Host → Host
  | [], _, h => h
  | round :: rounds, current, h =>
      if current - start < budgetMs then
        let sample := h.config.activeExpireKeysPerRound.toNat
        let (db, expired) := dbActiveSweep h.db sample h.nowRealtimeMs round.draws released
        let h := { h with db := db }
        if expired * 100 / sample < h.config.activeExpirePercent.toNat then h
        else activeExpireLoop released start budgetMs rounds round.nowMs h
      else h

def activeExpireCron (io : TickIo) (h : Host) : Host :=
  if h.config.activeExpireEnabled = false then h
  else
    let budgetMs := (Int.tdiv 1000 h.config.hz).tdiv 4
    activeExpireLoop io.released h.nowMs budgetMs io.rounds h.nowMs h

def beforeSleep (nowMs nowRealtimeMs : Int) (io : TickIo) (h : Host) : Host :=
  let h := { h with nowMs := nowMs, nowRealtimeMs := nowRealtimeMs, cronloops := h.cronloops + 1 }
  aofRewriteCron io.cron (aofCron io.flushed (activeExpireCron io h))

/-! Events. -/

inductive Event
  | request (payload : Bytes) (io : RequestIo)
  | tick (nowMs nowRealtimeMs : Int) (io : TickIo)
  | child (realtimeMs : Int) (io : ChildIo)
  | childKilled
  | childSignal
  | signal
  | shutdown

/-- The child ends without reaching its `_exit`. -/
def killChild (c : Child) : Child :=
  if c.phase.running then { c with phase := .killed } else c

/-- The child runs the handler it inherited, which writes to the shared pipe. -/
def signalChild (h : Host) (c : Child) : Host :=
  if c.sigterm ∧ c.phase.running then
    { h with child := some { c with sigterm := false }, pipe := h.pipe + 1 }
  else h

def step (h : Host) : Event → Host
  | .request payload io =>
      if h.exited ∨ msgMax < payload.length then h else (commandExecute io h payload msgMax).1
  | .tick nowMs nowRealtimeMs io =>
      if h.exited then h
      else if h.elStop then { h with exited := true }
      else beforeSleep nowMs nowRealtimeMs io h
  | .child realtimeMs io =>
      match h.child with
      | none => h
      | some c =>
          let (c, disk) := childStep realtimeMs io c h.disk
          { h with child := some c, disk := disk }
  | .childKilled =>
      match h.child with
      | none => h
      | some c => { h with child := some (killChild c) }
  | .childSignal =>
      match h.child with
      | none => h
      | some c => signalChild h c
  | .signal => { h with pipe := h.pipe + 1 }
  | .shutdown => if h.exited ∨ h.pipe = 0 then h else { h with pipe := 0, elStop := true }

def mutation (h : Host) : Event → Option Record
  | .request payload _ => if h.exited ∨ msgMax < payload.length then none else accepted h payload
  | _ => none

theorem accepted_iff {h : Host} {payload : Bytes} {r : Record} : accepted h payload = some r ↔
    requestRecord h.nowRealtimeMs payload = some r ∧ (replayDispatch h.db r.decoded).2 = true :=
  Option.filter_eq_some_iff

theorem mutation_iff {h : Host} {payload : Bytes} {io : RequestIo} {r : Record} :
    mutation h (.request payload io) = some r ↔ (h.exited = false ∧ payload.length ≤ msgMax) ∧
      requestRecord h.nowRealtimeMs payload = some r ∧ (replayDispatch h.db r.decoded).2 = true := by
  have runs : ¬ (h.exited = true ∨ msgMax < payload.length) ↔
      h.exited = false ∧ payload.length ≤ msgMax := by
    rw [not_or, Bool.not_eq_true, not_lt]
  rw [mutation, ← runs, ← accepted_iff]
  split
  · rename_i barred
    exact iff_of_false nofun fun made => made.1 barred
  · rename_i clear
    exact (and_iff_right clear).symm

def run (h : Host) (events : List Event) : Host := Transition.run step h events

theorem run_append (h : Host) (before after : List Event) :
    run h (before ++ after) = run (run h before) after :=
  Transition.run_append step h before after

theorem run_concat (h : Host) (events : List Event) (e : Event) :
    run h (events ++ [e]) = step (run h events) e :=
  Transition.run_concat step h events e

end ByteKV.ServerRun
