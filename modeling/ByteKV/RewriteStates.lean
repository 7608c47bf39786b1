import ByteKV.BackgroundJob
import ByteKV.ConfigFile
import ByteKV.RewriteInvariant

/-! The states of a rewrite, whatever the configuration: the server runs its rewrites as a
manager runs one background job at a time, and its counters account for every attempt. -/
namespace ByteKV.RewriteStates
open Config Database HashTable FileIo AofRecord ServerState AofAppend AofRewrite ServerRun
open StepCases Command BackgroundJob RewriteInvariant ConfigFile

def phase : AofRewriteState → Phase
  | .idle => .idle
  | .active => .active
  | .aborting => .aborting

theorem phase_idle {state : AofRewriteState} : phase state = .idle ↔ state = .idle := by
  cases state <;> simp [phase]

theorem phase_active {state : AofRewriteState} : phase state = .active ↔ state = .active := by
  cases state <;> simp [phase]

/-- The rewrite as a background job. -/
def job (h : Host) : Job where
  phase := phase h.aofRewriteState
  worker := h.aofRewritePid
  child := h.child.map Child.pid
  next := h.nextPid
  buf := h.aofRewriteBuf.map DiffBuf.alloc
  len := h.aofRewriteLen
  cap := h.aofRewriteCap
  completed := h.aofRewritesCompleted
  failed := h.aofRewritesFailed

def maxCap (config : ServerConfig) : Nat := toU64 config.aofRewriteBufMaxSize

/-! The calls of `aof_rewrite_start`. -/

/-- The tests of the cron in the state IDLE. -/
def wantsRewrite (statted : Bool) (h : Host) : Bool :=
  if h.aofRewriteNextAttemptMs > 0 ∧ h.nowMs < h.aofRewriteNextAttemptMs then false
  else match h.disk.aof, statted with
    | some ino, true =>
        let size : Int := (h.disk.data ino).length
        let threshold := h.aofRewriteLastSize +
          (h.aofRewriteLastSize * h.config.aofRewriteGrowth).tdiv 100
        ¬ size < h.config.aofRewriteMinSize ∧ ¬ size < threshold
    | _, _ => false

theorem maybeStart_eq (io : CronIo) (h : Host) :
    maybeStart io h = if wantsRewrite io.statted h then (aofRewriteStart io.start h).1 else h := by
  unfold maybeStart wantsRewrite
  split
  · rfl
  · cases h.disk.aof with
    | none => rfl
    | some ino =>
      cases io.statted with
      | false => rfl
      | true =>
        by_cases small : ((h.disk.data ino).length : Int) < h.config.aofRewriteMinSize
        · simp [small]
        · by_cases under : ((h.disk.data ino).length : Int) < h.aofRewriteLastSize +
            (h.aofRewriteLastSize * h.config.aofRewriteGrowth).tdiv 100 <;> simp [small, under]

def cronStarts (io : CronIo) (h : Host) : Nat :=
  if h.config.aofEnabled = false then 0
  else if h.nowMs - h.lastCheckMs < 1000 then 0
  else if h.aofRewriteState = .idle ∧ wantsRewrite io.statted { h with lastCheckMs := h.nowMs } then 1
  else 0

def requestStarts (h : Host) (payload : Bytes) : Nat :=
  if requestProc payload = some .bgrewriteaof ∧ h.aofRewriteState = .idle then 1 else 0

def beforeCron (nowMs nowRealtimeMs : Int) (io : TickIo) (h : Host) : Host :=
  aofCron io.flushed (activeExpireCron io
    { h with nowMs := nowMs, nowRealtimeMs := nowRealtimeMs, cronloops := h.cronloops + 1 })

def startCalls (h : Host) : Event → Nat
  | .request payload _ => if h.exited ∨ msgMax < payload.length then 0 else requestStarts h payload
  | .tick nowMs nowRealtimeMs io =>
      if h.exited ∨ h.elStop then 0 else cronStarts io.cron (beforeCron nowMs nowRealtimeMs io h)
  | _ => 0

/-! What the functions of the server make of the job. -/

section Moves
variable {h : Host}

theorem start_move (io : StartIo) (idle : h.aofRewriteState = .idle) :
    Move (maxCap h.config) 1 (job h) (job (aofRewriteStart io h).1) := by
  have free : (job h).phase = .idle := phase_idle.mpr idle
  rcases aofRewriteStart_cases io h with eq | eq <;> rw [eq]
  · exact .refuse free
  · exact .start free

theorem copyDiff_job {b : DiffBuf} (hb : h.aofRewriteBuf = some b) (buf : Bytes) :
    job (copyDiff h buf) = (job h).copy buf.length := by
  simp only [copyDiff, hb, job, Job.copy, Option.map_some]

theorem growDiff_job {b : DiffBuf} (hb : h.aofRewriteBuf = some b) (newCap : Nat) :
    job (growDiff h newCap) = (job h).grow newCap := by
  simp only [growDiff, hb, job, Job.grow, Option.map_some]

theorem abort_job (h : Host) : job (aofAbortRewrite h) = (job h).abort := by
  have pid (c : Child) : (kill h.aofRewritePid c).pid = c.pid := by
    unfold kill
    split <;> rfl
  have same : (h.child.map (kill h.aofRewritePid)).map Child.pid = h.child.map Child.pid := by
    cases h.child <;> simp [pid]
  simp only [job, aofAbortRewrite, Job.abort, same, phase, Option.map_none]

theorem aofEmitDiff_move (inv : Sound (maxCap h.config) (job h))
    (active : h.aofRewriteState = .active) (reallocated : Bool) (buf : Bytes) :
    Move (maxCap h.config) 0 (job h) (job (aofEmitDiff h reallocated buf)) := by
  have busy : (job h).phase = .active := phase_active.mpr active
  obtain ⟨b, hb, -⟩ : ∃ b, h.aofRewriteBuf = some b ∧ b.alloc = h.aofRewriteCap := by
    have alloc : h.aofRewriteBuf.map DiffBuf.alloc = some h.aofRewriteCap :=
      inv.buf.trans (if_pos busy)
    exact Option.map_eq_some_iff.mp alloc
  have abort : Move (maxCap h.config) 0 (job h) (job (aofAbortRewrite h)) := by
    rw [abort_job]
    exact .abort busy
  simp only [aofEmitDiff]
  split
  · split
    · exact abort
    · rename_i fits
      split
      · have enough := le_grownCap h.aofRewriteCap (not_lt.mp fits)
        have grown (newCap : Nat) :
            (growDiff h newCap).aofRewriteBuf = some { b with alloc := newCap } := by
          simp only [growDiff, hb, Option.map_some]
        rw [copyDiff_job (grown _), growDiff_job hb]
        exact .grow buf.length _ busy enough (grownCap_le _ _ _)
      · exact abort
  · rename_i fits
    rw [copyDiff_job hb]
    exact .copy buf.length busy (not_lt.mp fits)

theorem aofMaybeFsyncAlways_job (h : Host) (flushed : Bool) :
    job (aofMaybeFsyncAlways h flushed).1 = job h := by
  rcases aofMaybeFsyncAlways_cases h flushed with same | same <;> rw [same]
  rfl

theorem writtenWhole_move (inv : Sound (maxCap h.config) (job h)) (io : AppendIo) (r : Record)
    (buf : Bytes) : Move (maxCap h.config) 0 (job h) (job (writtenWhole io h r buf)) := by
  let emitted : Host := { h with
    disk := h.disk.append h.aofFd buf
    aofTotalWrites := h.aofTotalWrites + 1
    appended := h.appended ++ [r] }
  by_cases active : h.aofRewriteState = .active
  · have eq : writtenWhole io h r buf =
        { aofEmitDiff emitted io.reallocated buf with aofBufDirty := true } := by
      simp only [writtenWhole, aofAppendWritten, active, if_true, emitted]
    rw [eq]
    exact aofEmitDiff_move (h := emitted) inv active io.reallocated buf
  · have eq : writtenWhole io h r buf = { emitted with aofBufDirty := true } := by
      simp only [writtenWhole, aofAppendWritten, active, if_false, emitted]
    rw [eq]
    exact .still

theorem aofAppend_move (inv : Sound (maxCap h.config) (job h)) (io : AppendIo) (r : Record) :
    Move (maxCap h.config) 0 (job h) (job (aofAppend io h r).1) := by
  have attempt := aofAppend_attempt io h r
  generalize (aofAppend io h r).1 = h' at attempt ⊢
  cases attempt with
  | unlogged off => exact .still
  | torn buf k on fits fault short => exact .still
  | whole buf on fits full =>
    rw [aofMaybeFsyncAlways_job]
    exact writtenWhole_move inv io r buf

theorem mutate_move (inv : Sound (maxCap h.config) (job h)) (io : AppendIo) (r : Record)
    (err : Bytes) (resp : CommandLine.Respbuf) (out : Db × Bool) :
    Move (maxCap h.config) 0 (job h) (job (mutate io h r err resp out).1) := by
  obtain ⟨db, _ | _⟩ := out
  · exact .still
  · exact aofAppend_move (h := { h with db := db }) inv io r

theorem discard_job (unlinked : Bool) (h : Host) : job (discard unlinked h) =
    { (job h).collect with child := h.child.map Child.pid, failed := h.aofRewritesFailed + 1 } := by
  cases unlinked <;> rfl

theorem prepared_job {g : Host} (prepared : Prepared h g) : job g = job h := by
  cases prepared <;> rfl

theorem cronRan_move {io : CronIo} {h' : Host} (ran : CronRan io h h')
    (busy : h.aofRewriteState ≠ .idle) : Move (maxCap h.config) 0 (job h) (job h') := by
  have busy' : (job h).phase ≠ .idle := mt phase_idle.mp busy
  cases ran with
  | unchanged => exact .still
  | started idle => exact absurd idle busy
  | lost => exact .fail busy'
  | discarded _ g prepared =>
    have same := prepared_job prepared
    have child : g.child.map Child.pid = none := congrArg Job.child same
    have failed : g.aofRewritesFailed = h.aofRewritesFailed := congrArg Job.failed same
    have ends : job (discard io.finalize.unlinked g) = (job h).fail := by
      rw [discard_job, same, child, failed]
      rfl
    rw [ends]
    exact .fail busy'
  | installed => exact .complete busy'

theorem cronPast_move (io : CronIo) (h : Host) :
    Move (maxCap h.config) (if h.aofRewriteState = .idle ∧ wantsRewrite io.statted h then 1 else 0)
      (job h) (job (if h.aofRewriteState = .idle then maybeStart io h
        else afterWait io (waitpid io.lost h))) := by
  by_cases idle : h.aofRewriteState = .idle
  · rw [if_pos idle, maybeStart_eq]
    by_cases wants : wantsRewrite io.statted h
    · rw [if_pos ⟨idle, wants⟩, if_pos wants]
      exact start_move io.start idle
    · rw [if_neg (fun both => wants both.2), if_neg wants]
      exact .still
  · rw [if_neg idle, if_neg (fun both => idle both.1)]
    exact cronRan_move (afterWait_ran io h idle) idle

theorem aofRewriteCron_move (io : CronIo) (h : Host) :
    Move (maxCap h.config) (cronStarts io h) (job h) (job (aofRewriteCron io h)) := by
  unfold aofRewriteCron cronStarts
  split
  · exact .still
  · split
    · exact .still
    · exact cronPast_move io { h with lastCheckMs := h.nowMs }

structure Untouched (h g : Host) : Prop where
  job : job g = job h
  config : g.config = h.config
  state : g.aofRewriteState = h.aofRewriteState
  child : g.child = h.child
  nowMs : g.nowMs = h.nowMs
  lastCheckMs : g.lastCheckMs = h.lastCheckMs

theorem Untouched.refl (h : Host) : Untouched h h := ⟨rfl, rfl, rfl, rfl, rfl, rfl⟩

theorem aofCron_untouched (flushed : Bool) (h : Host) : Untouched h (aofCron flushed h) := by
  rcases aofCron_cases flushed h with same | same | same <;> rw [same]
  · exact .refl h
  · exact ⟨rfl, rfl, rfl, rfl, rfl, rfl⟩
  · exact ⟨rfl, rfl, rfl, rfl, rfl, rfl⟩

theorem beforeCron_untouched (nowMs nowRealtimeMs : Int) (io : TickIo) (h : Host) :
    Untouched { h with nowMs := nowMs } (beforeCron nowMs nowRealtimeMs io h) := by
  let begun : Host :=
    { h with nowMs := nowMs, nowRealtimeMs := nowRealtimeMs, cronloops := h.cronloops + 1 }
  have swept : Untouched { h with nowMs := nowMs } (activeExpireCron io begun) :=
    activeExpireCron_induct (fun g key _ same => ⟨same.job, same.config, same.state, same.child,
      same.nowMs, same.lastCheckMs⟩) begun rfl ⟨rfl, rfl, rfl, rfl, rfl, rfl⟩
  have flushed := aofCron_untouched io.flushed (activeExpireCron io begun)
  exact ⟨flushed.job.trans swept.job, flushed.config.trans swept.config,
    flushed.state.trans swept.state, flushed.child.trans swept.child,
    flushed.nowMs.trans swept.nowMs, flushed.lastCheckMs.trans swept.lastCheckMs⟩

theorem beforeSleep_move (nowMs nowRealtimeMs : Int) (io : TickIo) (h : Host) :
    Move (maxCap h.config) (cronStarts io.cron (beforeCron nowMs nowRealtimeMs io h)) (job h)
      (job (beforeSleep nowMs nowRealtimeMs io h)) := by
  have same := beforeCron_untouched nowMs nowRealtimeMs io h
  have ran := aofRewriteCron_move io.cron (beforeCron nowMs nowRealtimeMs io h)
  rwa [same.job, same.config] at ran

theorem cmdBgrewriteaof_move (io : StartIo) (h : Host) (resp : CommandLine.Respbuf) :
    Move (maxCap h.config) (if h.aofRewriteState = .idle then 1 else 0) (job h)
      (job (cmdBgrewriteaof io h resp).1) := by
  rcases cmdBgrewriteaof_host io h resp with ⟨busy, eq⟩ | ⟨idle, eq⟩
  · rw [eq, if_neg busy]
    exact .still
  · rw [eq, if_pos idle]
    exact start_move io idle

theorem runProc_move (inv : Sound (maxCap h.config) (job h)) (io : RequestIo) (argv : List Bytes)
    (resp : CommandLine.Respbuf) {proc : CommandProc} (other : proc ≠ .bgrewriteaof) :
    Move (maxCap h.config) 0 (job h) (job (runProc io h argv resp proc).1) := by
  cases proc with
  | get =>
    rw [runProc, cmdGet_host]
    exact .still
  | ttl =>
    rw [runProc, cmdTtl_host]
    exact .still
  | set | persist | del => exact mutate_move inv _ _ _ _ _
  | setex =>
    simp only [runProc, cmdSetex]
    split
    · exact .still
    · exact mutate_move inv _ _ _ _ _
  | expire =>
    simp only [runProc, cmdExpire]
    split
    · exact .still
    · exact mutate_move inv _ _ _ _ _
  | keys | info => exact .still
  | bgrewriteaof => exact absurd rfl other

theorem commandExecute_move (inv : Sound (maxCap h.config) (job h)) (io : RequestIo)
    (payload : Bytes) (outCap : Nat) : Move (maxCap h.config) (requestStarts h payload) (job h)
      (job (commandExecute io h payload outCap).1) := by
  rw [requestStarts]
  cases asks : requestProc payload with
  | none =>
    rw [commandExecute_of_none asks, if_neg (by simp)]
    exact .still
  | some proc =>
    rw [commandExecute_of_proc asks]
    by_cases rewrites : proc = .bgrewriteaof
    · subst rewrites
      have called := cmdBgrewriteaof_move io.start h ⟨[], outCap⟩
      by_cases idle : h.aofRewriteState = .idle
      · rw [if_pos ⟨rfl, idle⟩]
        rwa [if_pos idle] at called
      · rw [if_neg (fun both => idle both.2)]
        rwa [if_neg idle] at called
    · rw [if_neg (fun both => rewrites (Option.some.inj both.1))]
      exact runProc_move inv io _ _ rewrites

theorem withChild_job {c c' : Child} (hc : h.child = some c) (pid : c'.pid = c.pid) (disk : Disk)
    (pipe : Nat) : job { h with child := some c', disk := disk, pipe := pipe } = job h := by
  simp only [job, hc, Option.map_some, pid]

theorem step_move (inv : Sound (maxCap h.config) (job h)) (e : Event) :
    Move (maxCap h.config) (startCalls h e) (job h) (job (step h e)) := by
  cases e with
  | request payload io =>
    simp only [step, startCalls]
    split
    · exact .still
    · exact commandExecute_move inv io payload msgMax
  | tick nowMs nowRealtimeMs io =>
    simp only [step, startCalls]
    by_cases exited : h.exited
    · simp only [exited, if_true, true_or]
      exact .still
    · by_cases stops : h.elStop
      · simp only [exited, stops, if_true, or_true]
        exact .still
      · simp only [exited, stops, or_self]
        exact beforeSleep_move nowMs nowRealtimeMs io h
  | child realtimeMs io =>
    simp only [step, startCalls]
    split
    · exact .still
    · rename_i c hc
      have same := withChild_job hc (childStep_same realtimeMs io c h.disk).1
        (childStep realtimeMs io c h.disk).2 h.pipe
      exact same ▸ .still
  | childKilled =>
    simp only [step, startCalls]
    split
    · exact .still
    · rename_i c hc
      have pid : (killChild c).pid = c.pid := by
        unfold killChild
        split <;> rfl
      exact withChild_job hc pid h.disk h.pipe ▸ .still
  | childSignal =>
    simp only [step, startCalls]
    split
    · exact .still
    · rename_i c hc
      unfold signalChild
      split
      · have pid : ({ c with sigterm := false } : Child).pid = c.pid := rfl
        exact withChild_job hc pid h.disk (h.pipe + 1) ▸ .still
      · exact .still
  | signal => exact .still
  | shutdown =>
    simp only [step, startCalls]
    split <;> exact .still

end Moves

/-! Runs. -/

def tracedStep (s : Host × Ledger) (e : Event) : Host × Ledger :=
  (step s.1 e, s.2.note (startCalls s.1 e) (job s.1) (job (step s.1 e)))

def traced (h : Host) (events : List Event) : Host × Ledger :=
  Transition.run tracedStep (h, ⟨0, []⟩) events

/-- The calls of `aof_rewrite_start` in a run, and the children that were forked in it and
not yet waited for. -/
def ledger (h : Host) (events : List Event) : Ledger := (traced h events).2

theorem traced_fst (h : Host) (events : List Event) : (traced h events).1 = run h events := by
  induction events using List.reverseRecOn with
  | nil => rfl
  | append_singleton events e ih =>
    rw [traced, Transition.run_concat, ← traced, tracedStep, run_concat, ih]

theorem initServer_job {config : ServerConfig} {disk : Disk} {nowMs nowRealtimeMs realtimeMs : Int}
    {io : BootIo} {h : Host}
    (boot : initServer config disk nowMs nowRealtimeMs realtimeMs io = some h) :
    job h = ⟨.idle, none, none, 0, none, 0, aofRecordMax * 64, 0, 0⟩ := by
  obtain ⟨db, disk', ino, lastSize, rfl, -⟩ := initServer_cases boot
  rfl

theorem sound_start {config : ServerConfig} (accepted : Accepted config) :
    Sound (maxCap config) ⟨.idle, none, none, 0, none, 0, aofRecordMax * 64, 0, 0⟩ := by
  obtain ⟨low, high⟩ := accepted.aofRewriteBufMaxSize
  refine ⟨by simp, rfl, rfl, Nat.zero_le _, fun _ => rfl, ?_⟩
  simp only [maxCap, toU64, aofRecordMax_eq]
  omega

structure RewriteOk (h : Host) (ledger : Ledger) : Prop where
  idle : h.aofRewriteState = .idle ↔ h.aofRewritePid = none
  buf : h.aofRewriteBuf.isSome ↔ h.aofRewriteState = .active
  alloc : ∀ b, h.aofRewriteBuf = some b → b.alloc = h.aofRewriteCap
  len : h.aofRewriteLen ≤ h.aofRewriteCap
  cap : (h.aofRewriteCap : Int) ≤ h.config.aofRewriteBufMaxSize
  outside : h.aofRewriteState ≠ .active → h.aofRewriteLen = 0
  children : ledger.alive.length ≤ 1
  calls : h.aofRewritesCompleted + h.aofRewritesFailed + (if h.aofRewriteState = .idle then 0 else 1) =
    ledger.starts

theorem rewriteOk_of_job {h : Host} {ledger : Ledger} (accepted : Accepted h.config)
    (inv : Sound (maxCap h.config) (job h)) (balanced : Balanced (job h) ledger) :
    RewriteOk h ledger := by
  have buf : h.aofRewriteBuf.map DiffBuf.alloc =
      if (job h).phase = .active then some h.aofRewriteCap else none := inv.buf
  refine ⟨phase_idle.symm.trans inv.worker, ?_, fun b hb => ?_, inv.len, ?_, ?_,
    balanced.alive_le, ?_⟩
  · rw [← phase_active, ← Option.isSome_map (f := DiffBuf.alloc), buf]
    change (if (job h).phase = .active then some h.aofRewriteCap else none).isSome = true ↔
      (job h).phase = .active
    split <;> simp [*]
  · rw [hb] at buf
    split at buf
    · exact Option.some.inj buf
    · cases buf
  · have cap : h.aofRewriteCap ≤ toU64 h.config.aofRewriteBufMaxSize := inv.cap
    obtain ⟨low, high⟩ := accepted.aofRewriteBufMaxSize
    simp only [toU64] at cap
    omega
  · exact fun other => inv.outside (mt phase_active.mp other)
  · rw [← balanced.starts]
    simp only [job, phase_idle]

theorem run_sound {config : ServerConfig} (accepted : Accepted config) {disk : Disk}
    {nowMs nowRealtimeMs realtimeMs : Int} {io : BootIo} {h : Host}
    (boot : initServer config disk nowMs nowRealtimeMs realtimeMs io = some h)
    (events : List Event) : (run h events).config = config ∧
      Sound (maxCap config) (job (run h events)) ∧ Balanced (job (run h events)) (ledger h events) := by
  have start := initServer_job boot
  let I (s : Host × Ledger) : Prop :=
    s.1.config = config ∧ Sound (maxCap config) (job s.1) ∧ Balanced (job s.1) s.2
  have keep (s : Host × Ledger) (e : Event) (inv : I s) : I (tracedStep s e) := by
    obtain ⟨same, sound, balanced⟩ := inv
    have move := step_move (h := s.1) (same.symm ▸ sound) e
    rw [same] at move
    exact ⟨(step_completed s.1 e).1.trans same, move.sound sound, move.balanced sound balanced⟩
  have first : I (h, ⟨0, []⟩) := by
    refine ⟨(initServer_spec boot).1.config, ?_, ?_⟩
    · rw [start]
      exact sound_start accepted
    · rw [start]
      exact ⟨rfl, rfl⟩
  have last : I (traced h events) := Transition.run_invariant_always keep first events
  have same := traced_fst h events
  obtain ⟨config_eq, sound, balanced⟩ := last
  rw [same] at config_eq sound balanced
  exact ⟨config_eq, sound, balanced⟩

/-- The rewrite machine in every state that the server can come to. -/
theorem run_rewriteOk {config : ServerConfig} (accepted : Accepted config) {disk : Disk}
    {nowMs nowRealtimeMs realtimeMs : Int} {io : BootIo} {h : Host}
    (boot : initServer config disk nowMs nowRealtimeMs realtimeMs io = some h)
    (events : List Event) : RewriteOk (run h events) (ledger h events) := by
  obtain ⟨same, sound, balanced⟩ := run_sound accepted boot events
  rw [← same] at sound accepted
  exact rewriteOk_of_job accepted sound balanced

def rewriteRequest : Bytes := ascii "BGREWRITEAOF"

def twoStarts : List Event :=
  [.request rewriteRequest { start := { forked := false } }, .request rewriteRequest {}]

theorem run_rewriteOk_twoStarts :
    RewriteOk (run (firstHost {}) twoStarts) (ledger (firstHost {}) twoStarts) ∧
      ledger (firstHost {}) twoStarts = ⟨2, [0]⟩ ∧
      (run (firstHost {}) twoStarts).aofRewriteState = .active :=
  ⟨run_rewriteOk ⟨none, rfl⟩ (firstHost_boot {}) twoStarts, by decide +kernel, by decide +kernel⟩

end ByteKV.RewriteStates
