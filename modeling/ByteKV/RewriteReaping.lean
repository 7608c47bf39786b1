import ByteKV.RewriteStates

/-! The end of a rewrite: what the cron does with a child that has terminated, and when it
gets to do it. -/
namespace ByteKV.RewriteReaping
open Config ServerState AofRewrite ServerRun StepCases Command BackgroundJob ConfigFile
open RewriteStates

/-- The machine is back in its first state, and takes the next BGREWRITEAOF. -/
structure Reaped (h : Host) : Prop where
  state : h.aofRewriteState = .idle
  pid : h.aofRewritePid = none
  buf : h.aofRewriteBuf = none
  len : h.aofRewriteLen = 0
  again : (commandExecute {} h rewriteRequest msgMax).2 = ascii "+OK background rewrite started\n"

theorem rewriteRequest_proc : requestProc rewriteRequest = some .bgrewriteaof := by
  decide +kernel

theorem rewriteRequest_answer {h : Host} (idle : h.aofRewriteState = .idle) :
    (commandExecute {} h rewriteRequest msgMax).2 = ascii "+OK background rewrite started\n" := by
  have answer : (cmdBgrewriteaof {} h ⟨[], msgMax⟩).2 =
      CommandLine.respAdd ⟨[], msgMax⟩ (ascii "+OK background rewrite started\n") := by
    rw [cmdBgrewriteaof, if_neg (not_not.mpr idle)]
    rfl
  rw [commandExecute_of_proc rewriteRequest_proc, runProc, answer]
  change (CommandLine.respAdd ⟨[], msgMax⟩ (ascii "+OK background rewrite started\n")).out = _
  decide +kernel

theorem reaped_of_idle {limit : Nat} {h : Host} (inv : Sound limit (job h))
    (idle : h.aofRewriteState = .idle) : Reaped h := by
  have free : (job h).phase = .idle := phase_idle.mpr idle
  have inactive : (job h).phase ≠ .active := by simp [free]
  have buf : h.aofRewriteBuf.map DiffBuf.alloc = none := inv.buf.trans (if_neg inactive)
  exact ⟨idle, inv.worker.mp free, Option.map_eq_none_iff.mp buf, inv.outside inactive,
    rewriteRequest_answer idle⟩

theorem afterWait_idle (io : CronIo) (h : Host) (phase : ChildPhase) :
    (afterWait io (h, .reaped phase)).aofRewriteState = .idle := by
  simp only [afterWait]
  split
  · rfl
  · split
    · have final := aofRewriteFinalize_finalized io.finalize h
      generalize aofRewriteFinalize io.finalize h = h' at final ⊢
      cases final with
      | discarded g prepared => rfl
      | installed ino temp => rfl
    · rfl

theorem aofRewriteCron_idle {io : CronIo} {h : Host} {c : Child}
    (enabled : h.config.aofEnabled = true) (due : 1000 ≤ h.nowMs - h.lastCheckMs)
    (busy : h.aofRewriteState ≠ .idle) (child : h.child = some c) (ended : c.phase.running = false)
    (found : io.lost = false) : (aofRewriteCron io h).aofRewriteState = .idle := by
  have reaped : aofRewriteCron io h =
      afterWait io ({ h with lastCheckMs := h.nowMs, child := none }, .reaped c.phase) := by
    simp only [aofRewriteCron, enabled, not_lt.mpr due, busy, waitpid, child, ended, found,
      if_false, Bool.true_eq_false, Bool.false_eq_true]
  rw [reaped]
  exact afterWait_idle io _ c.phase

/-- The tick calls the cron at a time when it looks, and waitpid reports the child. -/
structure Due (h : Host) (nowMs : Int) (tick : TickIo) : Prop where
  runs : h.exited = false
  goes : h.elStop = false
  interval : 1000 ≤ nowMs - h.lastCheckMs
  found : tick.cron.lost = false

theorem tick_eq {h : Host} {nowMs : Int} {tick : TickIo} (due : Due h nowMs tick)
    (nowRealtimeMs : Int) : step h (.tick nowMs nowRealtimeMs tick) =
      aofRewriteCron tick.cron (beforeCron nowMs nowRealtimeMs tick h) := by
  simp only [step, due.runs, due.goes, Bool.false_eq_true, if_false]
  rfl

theorem tick_idle {h : Host} {nowMs : Int} {tick : TickIo} (due : Due h nowMs tick)
    (nowRealtimeMs : Int) {c : Child} (enabled : h.config.aofEnabled = true)
    (busy : h.aofRewriteState ≠ .idle) (child : h.child = some c) (ended : c.phase.running = false) :
    (step h (.tick nowMs nowRealtimeMs tick)).aofRewriteState = .idle := by
  have same := beforeCron_untouched nowMs nowRealtimeMs tick h
  rw [tick_eq due]
  refine aofRewriteCron_idle (c := c) ?_ ?_ ?_ ?_ ended due.found
  · rw [same.config]
    exact enabled
  · rw [same.nowMs, same.lastCheckMs]
    exact due.interval
  · rw [same.state]
    exact busy
  · rw [same.child]
    exact child

theorem tick_disabled {h : Host} {nowMs : Int} {tick : TickIo} (due : Due h nowMs tick)
    (nowRealtimeMs : Int) (disabled : h.config.aofEnabled = false) :
    (step h (.tick nowMs nowRealtimeMs tick)).aofRewriteState = h.aofRewriteState := by
  have same := beforeCron_untouched nowMs nowRealtimeMs tick h
  have off : (beforeCron nowMs nowRealtimeMs tick h).config.aofEnabled = false := by
    rw [same.config]
    exact disabled
  rw [tick_eq due, aofRewriteCron, if_pos off]
  exact same.state

/-- A rewrite whose child has terminated is reaped by the next cron that looks, if and only
if the log is switched on. -/
theorem reaped_iff {config : ServerConfig} (accepted : Accepted config) {disk : FileIo.Disk}
    {nowMs nowRealtimeMs realtimeMs : Int} {io : BootIo} {h : Host}
    (boot : initServer config disk nowMs nowRealtimeMs realtimeMs io = some h) (events : List Event)
    (busy : (run h events).aofRewriteState ≠ .idle) {c : Child}
    (child : (run h events).child = some c) (ended : c.phase.running = false)
    {tickMs tickRealtimeMs : Int} {tick : TickIo} (due : Due (run h events) tickMs tick) :
    Reaped (step (run h events) (.tick tickMs tickRealtimeMs tick)) ↔ config.aofEnabled = true := by
  obtain ⟨same, -, -⟩ := run_sound accepted boot events
  constructor
  · intro reaped
    by_contra off
    rw [Bool.not_eq_true, ← same] at off
    exact busy ((tick_disabled due tickRealtimeMs off).symm.trans reaped.state)
  · intro enabled
    rw [← same] at enabled
    have sound := (run_sound accepted boot (events ++ [.tick tickMs tickRealtimeMs tick])).2.1
    rw [run_concat] at sound
    exact reaped_of_idle sound (tick_idle due tickRealtimeMs enabled busy child ended)

def killedRewrite : List Event := [.request rewriteRequest {}, .childKilled]

theorem killedRewrite_ended : ∃ c, (run (firstHost {}) killedRewrite).child = some c ∧
    c.phase.running = false := by
  have killed :
      (run (firstHost {}) killedRewrite).child.any (fun c => !c.phase.running) = true := by
    decide +kernel
  obtain ⟨c, child, ended⟩ := Option.any_eq_true _ _ |>.mp killed
  exact ⟨c, child, by simpa using ended⟩

theorem reaped_killed : Reaped (step (run (firstHost {}) killedRewrite) (.tick 2000 2000 {})) := by
  obtain ⟨c, child, ended⟩ := killedRewrite_ended
  exact (reaped_iff ⟨none, rfl⟩ (firstHost_boot {}) killedRewrite (by decide +kernel) child ended
    ⟨by decide +kernel, by decide +kernel, by decide +kernel, rfl⟩).mpr rfl

/-- What a file with the one line `aof-enabled no` makes of the defaults. -/
def noLog : ServerConfig := { aofEnabled := false }

/-- Without a log the rewrite starts on demand, and is never reaped. -/
theorem rewrite_stays :
    Accepted noLog ∧ (run (firstHost noLog) killedRewrite).aofRewriteState = .active ∧
      (run (firstHost noLog) killedRewrite).child.any (fun c => !c.phase.running) = true ∧
      Due (run (firstHost noLog) killedRewrite) 2000 {} ∧
      ¬ Reaped (step (run (firstHost noLog) killedRewrite) (.tick 2000 2000 {})) ∧
      (commandExecute {} (step (run (firstHost noLog) killedRewrite) (.tick 2000 2000 {}))
        rewriteRequest msgMax).2 = ascii "-ERR rewrite already in progress\n" := by
  have stays : (step (run (firstHost noLog) killedRewrite) (.tick 2000 2000 {})).aofRewriteState =
      .active := by decide +kernel
  refine ⟨⟨some (ascii "aof-enabled no\n"), by decide +kernel⟩, by decide +kernel, by decide +kernel,
    ⟨by decide +kernel, by decide +kernel, by decide +kernel, rfl⟩, fun reaped => ?_,
    by decide +kernel⟩
  rw [reaped.state] at stays
  cases stays

end ByteKV.RewriteReaping
