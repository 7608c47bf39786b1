import ByteKV.LogHandover
import ByteKV.PowerLoss

/-! The flag `aof_buf_dirty`. It is about whichever file `aof_fd` refers to, and the
functions that set it, clear it and swap the file are different ones. Clear means that
all of the file is on the device, unless nothing has been written to it at all. -/
namespace ByteKV.CleanFlag
open Config Database HashTable FileIo AofRecord ServerState AofAppend AofRewrite ServerRun
open StepCases RewriteInvariant Command LogInvariant RewriteStates LogHandover PowerLoss

structure SameLog (h h' : Host) : Prop where
  dirty : h'.aofBufDirty = h.aofBufDirty
  aofFd : h'.aofFd = h.aofFd
  live : h'.live = h.live
  synced : h.disk.synced h.aofFd ≤ h'.disk.synced h.aofFd
  appended : h'.appended = h.appended
  completed : h'.aofRewritesCompleted = h.aofRewritesCompleted

theorem SameLog.of_disk {h h' : Host} (dirty : h'.aofBufDirty = h.aofBufDirty)
    (aofFd : h'.aofFd = h.aofFd) (disk : h'.disk = h.disk) (appended : h'.appended = h.appended)
    (completed : h'.aofRewritesCompleted = h.aofRewritesCompleted) : SameLog h h' :=
  ⟨dirty, aofFd, by rw [Host.live, Host.live, aofFd, disk], by rw [disk], appended, completed⟩

theorem SameLog.refl (h : Host) : SameLog h h := .of_disk rfl rfl rfl rfl rfl

theorem SameLog.flushed {h h' : Host} (same : SameLog h h') (on : Flushed h) : Flushed h' := by
  refine le_antisymm (h'.disk.synced_le _) ?_
  rw [same.live, ← on, same.aofFd]
  exact same.synced

inductive FlagStep (h h' : Host) : Prop
  | kept (same : SameLog h h')
  | dirtied (dirty : h'.aofBufDirty = true)
  | flushed (on : Flushed h')

theorem FlagStep.trans {h h' h'' : Host} (first : FlagStep h h') (second : FlagStep h' h'') :
    FlagStep h h'' := by
  cases second with
  | dirtied dirty => exact .dirtied dirty
  | flushed on => exact .flushed on
  | kept same =>
    cases first with
    | dirtied dirty => exact .dirtied (same.dirty.trans dirty)
    | flushed on => exact .flushed (same.flushed on)
    | kept same' =>
      exact .kept ⟨same.dirty.trans same'.dirty, same.aofFd.trans same'.aofFd,
        same.live.trans same'.live, same'.synced.trans (same'.aofFd ▸ same.synced),
        same.appended.trans same'.appended, same.completed.trans same'.completed⟩

/-- If the flag is clear, either nothing has been logged since `start` or all of the log
is on the device. -/
def CleanOk (start h : Host) : Prop :=
  h.aofBufDirty = false →
    h.appended = start.appended ∧ h.aofRewritesCompleted = start.aofRewritesCompleted ∨ Flushed h

theorem FlagStep.cleanOk {start h h' : Host} (s : FlagStep h h') (ok : CleanOk start h) :
    CleanOk start h' := by
  intro clean
  cases s with
  | dirtied dirty => simp [dirty] at clean
  | flushed on => exact Or.inr on
  | kept same =>
    refine (ok (same.dirty ▸ clean)).imp (fun none => ?_) same.flushed
    exact ⟨same.appended.trans none.1, same.completed.trans none.2⟩

/-! One function after the other. -/

theorem flush_flushed (h : Host) :
    (h.disk.flush h.aofFd).synced h.aofFd = ((h.disk.flush h.aofFd).data h.aofFd).length := by
  rw [Disk.flush_synced, Disk.flush_data]

theorem aofMaybeFsyncAlways_flag {h : Host} (dirty : h.aofBufDirty = true) (flushed : Bool) :
    FlagStep h (aofMaybeFsyncAlways h flushed).1 := by
  rcases aofMaybeFsyncAlways_cases h flushed with same | same <;> rw [same]
  · exact .dirtied dirty
  · exact .flushed (flush_flushed h)

theorem aofAppend_flag {io : AppendIo} (h : Host) (r : Record) (written : .error ∉ io.writes) :
    FlagStep h (aofAppend io h r).1 := by
  have attempt := aofAppend_attempt io h r
  generalize (aofAppend io h r).1 = h' at attempt ⊢
  cases attempt with
  | unlogged off => exact .kept (.refl h)
  | torn buf k on fits fault short => simp [faultAfter_eq_none written] at fault
  | whole buf on fits full =>
    have dirty : (writtenWhole io h r buf).aofBufDirty = true := rfl
    exact .trans (.dirtied dirty) (aofMaybeFsyncAlways_flag dirty io.flushed)

theorem aofRewriteStart_flag (io : StartIo) (h : Host) : SameLog h (aofRewriteStart io h).1 := by
  rcases aofRewriteStart_cases io h with eq | eq <;> rw [eq]
  · exact .of_disk rfl rfl rfl rfl rfl
  · exact .of_disk rfl rfl rfl rfl rfl

theorem commandExecute_flag {io : RequestIo} (h : Host) (payload : Bytes) (outCap : Nat)
    (written : .error ∉ io.append.writes) :
    FlagStep h (commandExecute io h payload outCap).1 := by
  have exec := commandExecute_cases io h payload outCap
  generalize commandExecute io h payload outCap = result at exec
  cases exec with
  | mutation r asks =>
    have kept (db : Db) : SameLog h { h with db := db } := .of_disk rfl rfl rfl rfl rfl
    rcases replayDispatch h.db r.decoded with ⟨db, _ | _⟩
    · exact .kept (kept db)
    · exact .trans (.kept (kept db)) (aofAppend_flag _ r written)
  | cleaned => exact .kept (.of_disk rfl rfl rfl rfl rfl)
  | started => exact .kept (aofRewriteStart_flag io.start h)
  | unchanged => exact .kept (.refl h)

theorem aofCron_flag (flushed : Bool) (h : Host) : FlagStep h (aofCron flushed h) := by
  rcases aofCron_cases flushed h with same | same | same <;> rw [same]
  · exact .kept (.refl h)
  · exact .kept (.of_disk rfl rfl rfl rfl rfl)
  · exact .flushed (flush_flushed h)

/-- A rewrite that fails touches the temp file only, and one that succeeds installs a
file it has flushed itself. -/
theorem aofRewriteCron_flag (io : CronIo) {h : Host} (inv : RewriteInv h) :
    FlagStep h (aofRewriteCron io h) := by
  have keeps := (aofRewriteCron_preserves io h).keeps
  rcases aofRewriteCron_ran io h with same | ⟨-, ran⟩
  · exact same.symm ▸ .kept (.refl h)
  · generalize aofRewriteCron io h = h' at ran keeps ⊢
    cases ran with
    | unchanged => exact .kept (.of_disk rfl rfl rfl rfl rfl)
    | started idle =>
      let checked : Host := { h with lastCheckMs := h.nowMs }
      have kept : SameLog h checked := .of_disk rfl rfl rfl rfl rfl
      exact (FlagStep.kept kept).trans (.kept (aofRewriteStart_flag io.start checked))
    | lost busy => exact .kept (.of_disk rfl rfl rfl rfl rfl)
    | discarded busy g prepared =>
      have stopped := prepared.collected.discard io.finalize.unlinked
      have dirty : (discard io.finalize.unlinked g).aofBufDirty = h.aofBufDirty := by
        cases io.finalize.unlinked <;> cases prepared <;> rfl
      exact .kept ⟨dirty, stopped.aofFd, stopped.live inv.disk, (log_keeps inv keeps).2,
        stopped.appended, stopped.completed⟩
    | installed active c child phase ino temp => exact .flushed (install_flushed _ ino _)

theorem activeExpireCron_sameLog (nowMs nowRealtimeMs : Int) (io : TickIo) (h : Host) :
    SameLog h (activeExpireCron io
      { h with nowMs := nowMs, nowRealtimeMs := nowRealtimeMs, cronloops := h.cronloops + 1 }) :=
  activeExpireCron_induct (fun _ _ _ same => ⟨same.dirty, same.aofFd, same.live, same.synced,
    same.appended, same.completed⟩) _ rfl (.of_disk rfl rfl rfl rfl rfl)

theorem beforeCron_flag (nowMs nowRealtimeMs : Int) (io : TickIo) (h : Host) :
    FlagStep h (beforeCron nowMs nowRealtimeMs io h) :=
  .trans (.kept (activeExpireCron_sameLog nowMs nowRealtimeMs io h)) (aofCron_flag io.flushed _)

theorem step_flag {h : Host} (inv : RewriteInv h) {e : Event} (written : LogWritten e) :
    FlagStep h (step h e) := by
  have same : FlagStep h h := .kept (.refl h)
  have keeps := (step_preserves h e).keeps
  cases e with
  | request payload io =>
    simp only [step]
    split
    · exact same
    · exact commandExecute_flag h payload msgMax written
  | tick nowMs nowRealtimeMs io =>
    simp only [step]
    split
    · exact same
    · split
      · exact .kept (.of_disk rfl rfl rfl rfl rfl)
      · exact .trans (beforeCron_flag nowMs nowRealtimeMs io h)
          (aofRewriteCron_flag io.cron (beforeCron_rewriteInv inv nowMs nowRealtimeMs io))
  | child realtimeMs io =>
    simp only [step] at keeps ⊢
    split at keeps
    · exact same
    · rename_i c hc
      have live := (childStep_spec inv.disk realtimeMs io (inv.progress c hc)).2.1
      exact .kept ⟨rfl, rfl, live, (log_keeps inv keeps).2, rfl, rfl⟩
  | childKilled =>
    simp only [step]
    split
    · exact same
    · exact .kept (.of_disk rfl rfl rfl rfl rfl)
  | childSignal =>
    simp only [step, signalChild]
    split
    · exact same
    · split
      · exact .kept (.of_disk rfl rfl rfl rfl rfl)
      · exact same
  | signal => exact .kept (.of_disk rfl rfl rfl rfl rfl)
  | shutdown =>
    simp only [step]
    split
    · exact same
    · exact .kept (.of_disk rfl rfl rfl rfl rfl)

theorem cleanOk_run {h : Host} (inv : RewriteInv h) {events : List Event}
    (written : ∀ e ∈ events, LogWritten e) : CleanOk h (run h events) := by
  refine (Transition.run_invariant (I := fun g => RewriteInv g ∧ CleanOk h g)
    (P := fun _ e => LogWritten e) (fun g e now ok => ?_) ⟨inv, fun _ => Or.inl ⟨rfl, rfl⟩⟩ ?_).2
  · exact ⟨rewriteInv_step now.1 e, (step_flag now.1 ok).cleanOk now.2⟩
  · rw [Transition.along_iff_forall]
    rintro before e after rfl
    exact written e (by simp)

/-! What the log is made of while its writes succeed. -/

/-- A rewrite that a step installs: the child that wrote the snapshot and was `active`
before the step. -/
structure Installs (h h' : Host) (c : Child) (createdMs : Int) (snapshot : List Record) : Prop where
  active : h.aofRewriteState = .active
  child : h.child = some c
  snap : SnapshotOf c.clocks c.db c.db.keyspace.entries snapshot
  live : h'.live = logFile createdMs (snapshot ++ h.appended.drop c.mark)
  appended : h'.appended = h.appended
  completed : h'.aofRewritesCompleted = h.aofRewritesCompleted + 1

structure Grows (h h' : Host) (more : List Record) : Prop where
  live : h'.live = h.live ++ logBytes more
  appended : h'.appended = h.appended ++ more
  completed : h'.aofRewritesCompleted = h.aofRewritesCompleted

theorem exists_grows {h h' : Host} (live : h'.live = h.live) (appended : h'.appended = h.appended)
    (completed : h'.aofRewritesCompleted = h.aofRewritesCompleted) : ∃ more, Grows h h' more :=
  ⟨[], by rw [live, logBytes_nil, List.append_nil], by rw [appended, List.append_nil], completed⟩

theorem aofAppend_grows {io : AppendIo} (h : Host) (r : Record) (written : .error ∉ io.writes) :
    ∃ more, Grows h (aofAppend io h r).1 more := by
  obtain ⟨frame, appended⟩ := aofAppend_frame io h r
  have completed := frame.aofRewritesCompleted
  generalize (aofAppend io h r).1 = h' at appended completed ⊢
  cases appended with
  | unlogged off same => exact same ▸ exists_grows rfl rfl rfl
  | torn buf k fault short fits eq => simp [faultAfter_eq_none written] at fault
  | whole buf fits live grown inactive active =>
    exact ⟨[r], by rw [live, logBytes_singleton, aofSerialize_bytes fits], grown, completed⟩

theorem step_log {h : Host} (inv : RewriteInv h) {e : Event} (written : LogWritten e) :
    (∃ more, Grows h (step h e) more) ∨
      ∃ c createdMs snapshot, Installs h (step h e) c createdMs snapshot := by
  have out := stepped h e
  generalize step h e = h' at out ⊢
  cases out with
  | quiet _ q => exact Or.inl (exists_grows q.live q.appended q.completed)
  | @mutated payload io r asks makes stored =>
    obtain ⟨more, grown⟩ :=
      aofAppend_grows { h with db := (replayDispatch h.db r.decoded).1 } r written
    exact Or.inl ⟨more, grown.live, grown.appended, grown.completed⟩
  | refused | cleaned | started => exact Or.inl (exists_grows rfl rfl rfl)
  | @childStepped realtimeMs io c hc =>
    exact Or.inl
      (exists_grows (childStep_spec inv.disk realtimeMs io (inv.progress c hc)).2.1 rfl rfl)
  | childChanged makes c c' hc same q => exact Or.inl (exists_grows q.live q.appended q.completed)
  | @ticked nowMs nowRealtimeMs io =>
    let Before (g : Host) : Prop := Steady h g ∧ RewriteInv g ∧ g.live = h.live
    have cases : ∃ g, Before g ∧ CronOutcome g (beforeSleep nowMs nowRealtimeMs io h) :=
      beforeSleep_cases nowMs io h ⟨⟨rfl, rfl, rfl, rfl, rfl⟩, inv.retimed, rfl⟩
        (fun g key _ _ ⟨s, hg⟩ =>
          ⟨⟨s.config, s.state, s.child, s.appended, s.completed⟩, hg.1.withDb _, hg.2⟩)
        (fun g g' q ⟨s, hg⟩ =>
          ⟨⟨q.config.trans s.config, q.state.trans s.state, q.child.trans s.child,
            q.appended.trans s.appended, q.completed.trans s.completed⟩, hg.1.quiet q,
            q.live.trans hg.2⟩)
    obtain ⟨g, ⟨steady, inv', live⟩, outcome⟩ := cases
    cases outcome with
    | quiet q =>
      exact Or.inl (exists_grows (q.live.trans live) (q.appended.trans steady.appended)
        (q.completed.trans steady.completed))
    | started idle eq => exact Or.inl (eq ▸ exists_grows live steady.appended steady.completed)
    | ended busy stopped =>
      have kept := stopped.live inv'.disk
      exact Or.inl (exists_grows (kept.trans live) (stopped.appended.trans steady.appended)
        (stopped.completed.trans steady.completed))
    | installed c ino done =>
      obtain ⟨createdMs, snapshot, snap, bytes⟩ := inv'.installed_live done
      exact Or.inr ⟨c, createdMs, snapshot, steady.state ▸ done.active,
        steady.child ▸ done.child, snap, steady.appended ▸ bytes,
        done.appended.trans steady.appended, done.completed.trans (by rw [steady.completed])⟩

/-- What the log of `g` holds, with the events of `h` behind it: the records appended
since the start or, from the last installation of a rewrite on, the snapshot of the store
at its fork and the records appended since. -/
inductive Holds (h : Host) (events : List Event) (g : Host) : Bytes → Prop
  | records (never : g.aofRewritesCompleted = h.aofRewritesCompleted) (more : List Record)
      (appended : g.appended = h.appended ++ more) : Holds h events g (h.live ++ logBytes more)
  | rewritten (before during after : List Event) (e : Event)
      (split : events = before ++ during ++ e :: after) (forked : Forked (run h before)) (c : Child)
      (child : (run h (before ++ during)).child = some c)
      (installs : (run h (before ++ during ++ [e])).aofRewritesCompleted =
        (run h (before ++ during)).aofRewritesCompleted + 1)
      (last : g.aofRewritesCompleted = (run h (before ++ during ++ [e])).aofRewritesCompleted)
      (createdMs : Int) (snapshot more : List Record)
      (snap : SnapshotOf c.clocks (run h before).db (run h before).db.keyspace.entries snapshot)
      (appended : g.appended = (run h before).appended ++ more) :
      Holds h events g (logFile createdMs (snapshot ++ more))

theorem Holds.congr {h g g' : Host} {events : List Event} {log : Bytes}
    (held : Holds h events g log) (same : g'.appended = g.appended)
    (completed : g'.aofRewritesCompleted = g.aofRewritesCompleted) : Holds h events g' log := by
  cases held with
  | records never more since => exact .records (completed.trans never) more (same.trans since)
  | rewritten before during after e split forked c child installs last createdMs snapshot more
      snap since =>
    exact .rewritten before during after e split forked c child installs (completed.trans last)
      createdMs snapshot more snap (same.trans since)

theorem holds_run {h : Host} (inv : RewriteInv h) (idle : h.aofRewriteState = .idle)
    {events : List Event} (written : ∀ e ∈ events, LogWritten e) :
    Holds h events (run h events) (run h events).live := by
  induction events using List.reverseRecOn with
  | nil =>
    have start : h.live ++ logBytes [] = h.live := by rw [logBytes_nil, List.append_nil]
    exact start ▸ .records rfl [] (List.append_nil _).symm
  | append_singleton events e ih =>
    have held := ih fun f hf => written f (List.mem_append_left _ hf)
    rcases step_log (rewriteInv_run inv events) (written e (by simp))
      with ⟨more, grown⟩ | ⟨c, createdMs, snapshot, new⟩
    · rw [← run_concat] at grown
      rw [grown.live]
      generalize (run h events).live = log at held
      cases held with
      | records never since appended =>
        rw [List.append_assoc, ← logBytes_append]
        exact .records (grown.completed.trans never) _
          (by rw [grown.appended, appended, List.append_assoc])
      | rewritten before during after f split forked c child installs last createdMs snapshot since
          snap appended =>
        have log : logFile createdMs (snapshot ++ since) ++ logBytes more =
            logFile createdMs (snapshot ++ (since ++ more)) := by
          rw [logFile, logFile, List.append_assoc, ← logBytes_append, List.append_assoc]
        exact log ▸ .rewritten before during (after ++ [e]) f (by simp [split]) forked c child
          installs
          (grown.completed.trans last) createdMs snapshot _ snap
          (by rw [grown.appended, appended, List.append_assoc])
    · obtain ⟨before, during, rfl, forked, db, mark, -⟩ :=
        exists_fork idle events new.active new.child
      obtain ⟨more, history⟩ : (run h before).appended <+: (run h (before ++ during)).appended := by
        rw [run_append]
        exact appended_prefix_run _ during
      have since : (run h (before ++ during)).appended.drop c.mark = more := by
        rw [← history, mark, List.drop_left]
      have snap := new.snap
      rw [db] at snap
      rw [← run_concat] at new
      rw [new.live, since]
      exact .rewritten before during [] e rfl forked c new.child new.completed rfl createdMs snapshot
        more snap (new.appended.trans history.symm)

theorem off_step {h : Host} (off : h.config.aofEnabled = false) (e : Event) :
    (step h e).appended = h.appended ∧
      (step h e).aofRewritesCompleted = h.aofRewritesCompleted := by
  refine ⟨?_, (step_completed h e).2.resolve_right ?_⟩
  · have out := stepped h e
    generalize step h e = h' at out ⊢
    cases out with
    | quiet _ q => exact q.appended
    | @mutated payload io r asks makes stored =>
      let stored : Host := { h with db := (replayDispatch h.db r.decoded).1 }
      have same : (aofAppend io.append stored r).1 = stored := aofAppend_unlogged (Or.inl off)
      exact (congrArg Host.appended same :)
    | refused | cleaned | started | childStepped => rfl
    | childChanged makes c c' hc same q => exact q.appended
    | @ticked nowMs nowRealtimeMs io =>
      obtain ⟨g, ⟨steady, -⟩, outcome⟩ := steady_tick nowMs nowRealtimeMs io h
      exact outcome.appended.trans steady.appended
  · rintro ⟨g, c, ino, steady, -, done⟩
    have on := done.enabled
    rw [steady.config, off] at on
    cases on

theorem off_run {h : Host} (off : h.config.aofEnabled = false) (events : List Event) :
    (run h events).appended = h.appended ∧
      (run h events).aofRewritesCompleted = h.aofRewritesCompleted := by
  refine (Transition.run_invariant_always (I := fun g : Host => g.config.aofEnabled = false ∧
    g.appended = h.appended ∧ g.aofRewritesCompleted = h.aofRewritesCompleted)
    (fun g e ⟨still, appended, completed⟩ => ?_) ⟨off, rfl, rfl⟩ events).2
  obtain ⟨appended', completed'⟩ := off_step still e
  exact ⟨(step_completed g e).1 ▸ still, appended'.trans appended, completed'.trans completed⟩

def flushedLog (h : Host) : Bytes := (h.disk.data h.aofFd).take (h.disk.synced h.aofFd)

theorem beforeCron_sameLog (nowMs nowRealtimeMs : Int) (tick : TickIo) (h : Host) :
    (beforeCron nowMs nowRealtimeMs tick h).live = h.live ∧
      (beforeCron nowMs nowRealtimeMs tick h).appended = h.appended ∧
      (beforeCron nowMs nowRealtimeMs tick h).aofRewritesCompleted = h.aofRewritesCompleted := by
  have swept := activeExpireCron_sameLog nowMs nowRealtimeMs tick h
  have quiet := aofCron_quiet tick.flushed (activeExpireCron tick
    { h with nowMs := nowMs, nowRealtimeMs := nowRealtimeMs, cronloops := h.cronloops + 1 })
  exact ⟨quiet.live.trans swept.live, quiet.appended.trans swept.appended,
    quiet.completed.trans swept.completed⟩

/-- Whenever the flag is clear, between two events or behind the flush of a tick, what
the log has to hold is on the device; before the first append and the first rewrite there
is nothing that it has to hold. -/
theorem clean_flushed {config : ServerConfig} {disk : Disk} (wf : disk.WellFormed)
    {nowMs nowRealtimeMs realtimeMs : Int} {bootIo : BootIo} {start : Host}
    (boot : initServer config disk nowMs nowRealtimeMs realtimeMs bootIo = some start)
    (events : List Event) (written : ∀ e ∈ events, LogWritten e) {g : Host}
    (reached : g = run start events ∨ ∃ nowMs nowRealtimeMs tick,
      g = beforeCron nowMs nowRealtimeMs tick (run start events))
    (clean : g.aofBufDirty = false) :
    (g.appended = [] ∧ g.aofRewritesCompleted = start.aofRewritesCompleted) ∨
      Holds start events g (flushedLog g) := by
  obtain ⟨booted, sound⟩ := initServer_spec boot
  obtain ⟨live, appended, completed, flag⟩ : g.live = (run start events).live ∧
      g.appended = (run start events).appended ∧
      g.aofRewritesCompleted = (run start events).aofRewritesCompleted ∧
      FlagStep (run start events) g := by
    obtain rfl | ⟨nowMs, nowRealtimeMs, tick, rfl⟩ := reached
    · exact ⟨rfl, rfl, rfl, .kept (.refl _)⟩
    · obtain ⟨live, appended, completed⟩ :=
        beforeCron_sameLog nowMs nowRealtimeMs tick (run start events)
      exact ⟨live, appended, completed, beforeCron_flag nowMs nowRealtimeMs tick _⟩
  cases enabled : config.aofEnabled with
  | false =>
    have off : start.config.aofEnabled = false := by rw [booted.config, enabled]
    obtain ⟨none, never⟩ := off_run off events
    exact Or.inl ⟨by rw [appended, none, booted.appended], completed.trans never⟩
  | true =>
    have inv := sound wf enabled
    rcases flag.cleanOk (cleanOk_run inv written) clean with ⟨none, never⟩ | flushed
    · exact Or.inl ⟨none.trans booted.appended, never⟩
    · have whole : flushedLog g = (run start events).live := by
        rw [← live, flushedLog, flushed]
        exact List.take_length
      right
      rw [whole]
      exact (holds_run inv booted.state written).congr appended completed

/-- SET, a rewrite, another SET whose fsync is left to the tick, and that tick. -/
def flushedByTick : List Event := PowerLoss.rewritten ++ [.tick 3000 3000 {}]

def pertickHost : Host := firstHost { aofPolicy := .pertick }

theorem clean_flushed_byTick :
    (run pertickHost PowerLoss.rewritten).aofBufDirty = true ∧
      (run pertickHost flushedByTick).aofBufDirty = false ∧
      Holds pertickHost flushedByTick (run pertickHost flushedByTick)
        (flushedLog (run pertickHost flushedByTick)) := by
  have dirty : (run pertickHost PowerLoss.rewritten).aofBufDirty = true := by decide +kernel
  have clean : (run pertickHost flushedByTick).aofBufDirty = false := by decide +kernel
  have logged : (run pertickHost flushedByTick).appended ≠ [] := by decide +kernel
  refine ⟨dirty, clean, (clean_flushed Disk.blank_wellFormed (firstHost_boot _) flushedByTick
    (by simp [flushedByTick, PowerLoss.rewritten, LogWritten]) (Or.inl rfl) clean).resolve_left ?_⟩
  exact fun none => logged none.1

end ByteKV.CleanFlag
