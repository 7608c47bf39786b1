import ByteKV.ServerRun

/-! What a step can do, said once. Everything an invariant of the log can depend on
is listed in `Quiet`; the rest of the state may change without notice. -/
namespace ByteKV.StepCases
open Config Database HashTable FileIo AofRecord ServerState AofAppend AofRewrite ServerRun
open Command
open ExpiringLog (past)

structure Quiet (h h' : Host) : Prop where
  config : h'.config = h.config
  db : h'.db = h.db
  clock : h'.nowRealtimeMs = h.nowRealtimeMs
  aofFd : h'.aofFd = h.aofFd
  state : h'.aofRewriteState = h.aofRewriteState
  pid : h'.aofRewritePid = h.aofRewritePid
  buf : h'.aofRewriteBuf = h.aofRewriteBuf
  len : h'.aofRewriteLen = h.aofRewriteLen
  child : h'.child = h.child
  appended : h'.appended = h.appended
  completed : h'.aofRewritesCompleted = h.aofRewritesCompleted
  aof : h'.disk.aof = h.disk.aof
  temp : h'.disk.temp = h.disk.temp
  next : h'.disk.next = h.disk.next
  data : ∀ ino, h'.disk.data ino = h.disk.data ino

theorem Quiet.refl (h : Host) : Quiet h h := by
  constructor <;> intros <;> rfl

theorem Quiet.diff {h h' : Host} (q : Quiet h h') : h'.diff = h.diff := by
  rw [Host.diff, Host.diff, q.buf, q.len]

theorem Quiet.live {h h' : Host} (q : Quiet h h') : h'.live = h.live := by
  rw [Host.live, Host.live, q.aofFd, q.data]

theorem recordFailure_quiet (h : Host) : Quiet h (aofRewriteRecordFailure h) := by
  constructor <;> intros <;> rfl

theorem aofCron_quiet (flushed : Bool) (h : Host) : Quiet h (aofCron flushed h) := by
  rcases aofCron_cases flushed h with same | same | same <;> rw [same]
  · exact .refl h
  · constructor <;> intros <;> rfl
  · constructor <;> intros <;> first | rfl | exact Disk.flush_data _ _ _

/-- The rewrite is over and nothing came of it. Only the temp file may have
changed, or its name gone. -/
structure Ended (h h' : Host) : Prop where
  config : h'.config = h.config
  db : h'.db = h.db
  clock : h'.nowRealtimeMs = h.nowRealtimeMs
  aofFd : h'.aofFd = h.aofFd
  state : h'.aofRewriteState = .idle
  child : h'.child = none
  appended : h'.appended = h.appended
  completed : h'.aofRewritesCompleted = h.aofRewritesCompleted
  aof : h'.disk.aof = h.disk.aof
  temp : h'.disk.temp = none ∨ h'.disk.temp = h.disk.temp
  next : h'.disk.next = h.disk.next
  data : ∀ ino, h.disk.temp ≠ some ino → h'.disk.data ino = h.disk.data ino

theorem Ended.live {h h' : Host} (stopped : Ended h h') (ok : h.disk.Ok h.aofFd) :
    h'.live = h.live := by
  rw [Host.live, stopped.aofFd]
  exact stopped.data _ fun named => (ok.temp _ named).2 rfl

/-- The temp file, with the diff behind it, has become the log. -/
structure Installed (h h' : Host) (c : Child) (ino : Nat) : Prop where
  enabled : h.config.aofEnabled = true
  active : h.aofRewriteState = .active
  child : h.child = some c
  phase : c.phase = .exited 0
  temp : h.disk.temp = some ino
  config : h'.config = h.config
  db : h'.db = h.db
  clock : h'.nowRealtimeMs = h.nowRealtimeMs
  aofFd : h'.aofFd = ino
  state : h'.aofRewriteState = .idle
  child' : h'.child = none
  appended : h'.appended = h.appended
  completed : h'.aofRewritesCompleted = h.aofRewritesCompleted + 1
  aof : h'.disk.aof = some ino
  temp' : h'.disk.temp = none
  next : h'.disk.next = h.disk.next
  data : h'.disk.data ino = h.disk.data ino ++ h.diff

inductive CronOutcome (h h' : Host) : Prop
  | quiet (q : Quiet h h')
  | started (idle : h.aofRewriteState = .idle) (eq : h' = forkChild h)
  | ended (busy : h.aofRewriteState ≠ .idle) (stopped : Ended h h')
  | installed (c : Child) (ino : Nat) (done : Installed h h' c ino)

theorem CronOutcome.db {h h' : Host} (outcome : CronOutcome h h') : h'.db = h.db := by
  cases outcome with
  | quiet q => exact q.db
  | started idle eq => rw [eq]; rfl
  | ended busy stopped => exact stopped.db
  | installed c ino done => exact done.db

theorem CronOutcome.appended {h h' : Host} (outcome : CronOutcome h h') :
    h'.appended = h.appended := by
  cases outcome with
  | quiet q => exact q.appended
  | started idle eq => rw [eq]; rfl
  | ended busy stopped => exact stopped.appended
  | installed c ino done => exact done.appended

/-- `g` differs from `h` in the contents of the temp file alone, and has no child. -/
structure Collected (h g : Host) : Prop where
  config : g.config = h.config
  db : g.db = h.db
  clock : g.nowRealtimeMs = h.nowRealtimeMs
  aofFd : g.aofFd = h.aofFd
  child : g.child = none
  appended : g.appended = h.appended
  completed : g.aofRewritesCompleted = h.aofRewritesCompleted
  aof : g.disk.aof = h.disk.aof
  temp : g.disk.temp = h.disk.temp
  next : g.disk.next = h.disk.next
  data : ∀ ino, h.disk.temp ≠ some ino → g.disk.data ino = h.disk.data ino

theorem Collected.cleanup {h g : Host} (c : Collected h g) :
    Ended h (aofRewriteCleanup (aofRewriteRecordFailure g)) :=
  ⟨c.config, c.db, c.clock, c.aofFd, rfl, c.child, c.appended, c.completed, c.aof, Or.inr c.temp,
    c.next, c.data⟩

theorem Collected.discard {h g : Host} (c : Collected h g) (unlinked : Bool) :
    Ended h (discard unlinked g) := by
  cases unlinked with
  | false => exact c.cleanup
  | true =>
    exact ⟨c.config, c.db, c.clock, c.aofFd, rfl, c.child, c.appended, c.completed, c.aof, Or.inl rfl,
      c.next, c.data⟩

theorem Collected.withDisk {h g : Host} (c : Collected h g) {disk : Disk} {ino : Nat}
    (temp : h.disk.temp = some ino) (same : Disk.SameBut ino g.disk disk) :
    Collected h { g with disk := disk } :=
  ⟨c.config, c.db, c.clock, c.aofFd, c.child, c.appended, c.completed, same.aof.trans c.aof,
    same.temp.trans c.temp, same.next.trans c.next, fun other ne =>
      (same.data other fun eq => ne (eq ▸ temp)).trans (c.data other ne)⟩

def flushDiff (ino : Nat) (h : Host) : Host :=
  { h with
    disk := (h.disk.append ino h.diff).flush ino
    aofTotalFsyncs := h.aofTotalFsyncs + 1 }

/-- How far `aof_rewrite_finalize` can come before it gives up. -/
inductive Prepared (h : Host) : Host → Prop
  | untouched : Prepared h h
  | written (ino : Nat) (temp : h.disk.temp = some ino) (out : Bytes) :
      Prepared h { h with disk := h.disk.append ino out }
  | flushed (ino : Nat) (temp : h.disk.temp = some ino) : Prepared h (flushDiff ino h)

inductive Finalized (io : FinalizeIo) (h : Host) : Host → Prop
  | discarded (g : Host) (prepared : Prepared h g) : Finalized io h (discard io.unlinked g)
  | installed (ino : Nat) (temp : h.disk.temp = some ino) :
      Finalized io h (install io.statted ino (flushDiff ino h))

theorem aofRewriteFinalize_finalized (io : FinalizeIo) (h : Host) :
    Finalized io h (aofRewriteFinalize io h) := by
  unfold aofRewriteFinalize
  split
  · rename_i ino temp _
    rcases hw : h.disk.writeAll ino io.writes h.diff with ⟨disk, _ | _⟩
    · obtain ⟨out, rfl⟩ := Disk.writeAll_false hw
      exact .discarded _ (.written ino temp out)
    · obtain rfl := Disk.writeAll_true hw
      cases io.flushed with
      | false => exact .discarded _ (.written ino temp h.diff)
      | true =>
        simp only [durableFlush, if_true]
        split
        · exact .discarded _ (.flushed ino temp)
        · split
          · exact .discarded _ (.flushed ino temp)
          · exact .installed ino temp
  · exact .discarded _ .untouched

theorem aofRewriteStart_cases (io : StartIo) (h : Host) :
    (aofRewriteStart io h).1 = aofRewriteRecordFailure h ∨ (aofRewriteStart io h).1 = forkChild h := by
  unfold aofRewriteStart
  split
  · exact Or.inl rfl
  · split
    · exact Or.inl rfl
    · exact Or.inr rfl

inductive CronRan (io : CronIo) (h : Host) : Host → Prop
  | unchanged : CronRan io h h
  | started (idle : h.aofRewriteState = .idle) : CronRan io h (aofRewriteStart io.start h).1
  | lost (busy : h.aofRewriteState ≠ .idle) :
      CronRan io h (aofRewriteCleanup (aofRewriteRecordFailure { h with child := none }))
  | discarded (busy : h.aofRewriteState ≠ .idle) (g : Host)
      (prepared : Prepared { h with child := none } g) :
      CronRan io h (discard io.finalize.unlinked g)
  | installed (active : h.aofRewriteState = .active) (c : Child) (child : h.child = some c)
      (phase : c.phase = .exited 0) (ino : Nat) (temp : h.disk.temp = some ino) :
      CronRan io h (install io.finalize.statted ino (flushDiff ino { h with child := none }))

theorem maybeStart_ran (io : CronIo) (h : Host) (idle : h.aofRewriteState = .idle) :
    CronRan io h (maybeStart io h) := by
  unfold maybeStart
  split
  · exact .unchanged
  · split
    · simp only
      split
      · exact .unchanged
      · split
        · exact .unchanged
        · exact .started idle
    · exact .unchanged

theorem afterWait_ran (io : CronIo) (h : Host) (busy : h.aofRewriteState ≠ .idle) :
    CronRan io h (afterWait io (waitpid io.lost h)) := by
  unfold waitpid
  rcases hc : h.child with _ | c
  · have same : { h with child := none } = h := by rw [← hc]
    have lost : CronRan io h
        (aofRewriteCleanup (aofRewriteRecordFailure { h with child := none })) := .lost busy
    rwa [same] at lost
  · simp only
    split
    · exact .unchanged
    · cases io.lost with
      | true => exact .lost busy
      | false =>
        simp only [Bool.false_eq_true, if_false, afterWait]
        split
        · exact .discarded busy _ .untouched
        · rename_i going
          split
          · rename_i phase
            have active : h.aofRewriteState = .active := by
              cases hs : h.aofRewriteState <;> simp_all
            have final := aofRewriteFinalize_finalized io.finalize { h with child := none }
            generalize aofRewriteFinalize io.finalize { h with child := none } = h' at final ⊢
            cases final with
            | discarded g prepared => exact .discarded busy g prepared
            | installed ino temp => exact .installed active c hc phase ino temp
          · exact .discarded busy _ .untouched

theorem aofRewriteCron_ran (io : CronIo) (h : Host) :
    aofRewriteCron io h = h ∨ h.config.aofEnabled = true ∧
      CronRan io { h with lastCheckMs := h.nowMs } (aofRewriteCron io h) := by
  unfold aofRewriteCron
  split
  · exact Or.inl rfl
  · rename_i enabled
    split
    · exact Or.inl rfl
    · refine Or.inr ⟨by simpa using enabled, ?_⟩
      simp only
      split
      · exact maybeStart_ran io _ ‹_›
      · exact afterWait_ran io _ ‹_›

theorem Prepared.collected {h g : Host} (prepared : Prepared { h with child := none } g) :
    Collected h g := by
  have gone : Collected h { h with child := none } :=
    ⟨rfl, rfl, rfl, rfl, rfl, rfl, rfl, rfl, rfl, rfl, fun _ _ => rfl⟩
  cases prepared with
  | untouched => exact gone
  | written ino temp out => exact gone.withDisk temp (Disk.append_sameBut _ _ _)
  | flushed ino temp =>
    have written := gone.withDisk temp (Disk.append_sameBut h.disk ino h.diff)
    obtain ⟨h1, h2, h3, h4, h5, h6, h7, h8, h9, h10, h11⟩ :=
      written.withDisk temp (Disk.flush_sameBut _ ino)
    exact ⟨h1, h2, h3, h4, h5, h6, h7, h8, h9, h10, h11⟩

theorem CronRan.outcome {io : CronIo} {h h' : Host} (enabled : h.config.aofEnabled = true)
    (ran : CronRan io h h') : CronOutcome h h' := by
  cases ran with
  | unchanged => exact .quiet (.refl h)
  | started idle =>
    rcases aofRewriteStart_cases io.start h with eq | eq
    · exact .quiet (eq ▸ recordFailure_quiet h)
    · exact .started idle eq
  | lost busy => exact .ended busy (Prepared.untouched.collected).cleanup
  | discarded busy g prepared => exact .ended busy (prepared.collected.discard _)
  | installed active c child phase ino temp =>
    refine .installed c ino ⟨enabled, active, child, phase, temp, rfl, rfl, rfl, rfl, rfl, rfl, rfl,
      rfl, temp, rfl, rfl, ?_⟩
    exact (Disk.flush_data _ _ _).trans (Disk.append_data _ _ _)

theorem aofRewriteCron_cases (io : CronIo) (h : Host) :
    ∃ g, Quiet h g ∧ CronOutcome g (aofRewriteCron io h) := by
  rcases aofRewriteCron_ran io h with same | ⟨enabled, ran⟩
  · exact ⟨h, .refl h, .quiet (same.symm ▸ .refl h)⟩
  · refine ⟨{ h with lastCheckMs := h.nowMs }, ?_, ran.outcome enabled⟩
    constructor <;> intros <;> rfl

/-! A whole tick: the clocks move, keys are swept, and the cron runs. -/

theorem beforeSleep_db (nowMs nowRealtimeMs : Int) (io : TickIo) (h : Host) :
    (beforeSleep nowMs nowRealtimeMs io h).db = (activeExpireCron io { h with
      nowMs := nowMs, nowRealtimeMs := nowRealtimeMs, cronloops := h.cronloops + 1 }).db := by
  obtain ⟨g, quiet, outcome⟩ := aofRewriteCron_cases io.cron (aofCron io.flushed (activeExpireCron io
    { h with nowMs := nowMs, nowRealtimeMs := nowRealtimeMs, cronloops := h.cronloops + 1 }))
  exact outcome.db.trans (quiet.db.trans (aofCron_quiet io.flushed _).db)

section Tick
variable {I : Host → Prop} {nowRealtimeMs : Int} {released : Bytes → Bytes}

theorem activeExpireLoop_induct
    (swept : ∀ g key, past nowRealtimeMs (g.db.cells.due key) → I g →
      I { g with db := (dbDelThrough g.db key (released key)).1 })
    (start budgetMs : Int) (rounds : List SweepRound) (current : Int) (h : Host)
    (now : h.nowRealtimeMs = nowRealtimeMs) (holds : I h) :
    I (activeExpireLoop released start budgetMs rounds current h) := by
  induction rounds generalizing current h with
  | nil => exact holds
  | cons round rounds ih =>
    rw [activeExpireLoop]
    split
    · have sweep : I { h with db := (dbActiveSweep h.db h.config.activeExpireKeysPerRound.toNat
          h.nowRealtimeMs round.draws released).1 } :=
        dbActiveSweep_induct (I := fun db => I { h with db := db })
          (fun db key due hdb => swept { h with db := db } key (now ▸ due) hdb) h.db _ _ holds
      simp only
      split
      · exact sweep
      · exact ih _ _ now sweep
    · exact holds

theorem activeExpireCron_induct {io : TickIo}
    (swept : ∀ g key, past nowRealtimeMs (g.db.cells.due key) → I g →
      I { g with db := (dbDelThrough g.db key (io.released key)).1 })
    (h : Host) (now : h.nowRealtimeMs = nowRealtimeMs) (holds : I h) :
    I (activeExpireCron io h) := by
  unfold activeExpireCron
  split
  · exact holds
  · exact activeExpireLoop_induct swept _ _ _ _ h now holds

/-- A tick is a tick without its cron, and then what the cron can do. A key that is
swept was due when the tick began. -/
theorem beforeSleep_cases (nowMs : Int) (io : TickIo) (h : Host)
    (retimed : I { h with
      nowMs := nowMs, nowRealtimeMs := nowRealtimeMs, cronloops := h.cronloops + 1 })
    (swept : ∀ g key, past nowRealtimeMs (h.db.cells.due key) →
      past nowRealtimeMs (g.db.cells.due key) → I g →
      I { g with db := (dbDelThrough g.db key (io.released key)).1 })
    (quiet : ∀ g g', Quiet g g' → I g → I g') :
    ∃ g, I g ∧ CronOutcome g (beforeSleep nowMs nowRealtimeMs io h) := by
  let J (g : Host) : Prop := I g ∧ ∀ k d, g.db.cells.due k = some d → h.db.cells.due k = some d
  let begun : Host :=
    { h with nowMs := nowMs, nowRealtimeMs := nowRealtimeMs, cronloops := h.cronloops + 1 }
  have start : J begun := ⟨retimed, fun _ _ due => due⟩
  have expired : J (activeExpireCron io begun) := by
    refine activeExpireCron_induct (fun g key passed hg => ?_) begun rfl start
    obtain ⟨d, due⟩ : ∃ d, g.db.cells.due key = some d := by
      rw [← Option.ne_none_iff_exists']
      exact fun none => by simp [none] at passed
    refine ⟨swept g key ?_ passed hg.1, fun k d' left => ?_⟩
    · rwa [hg.2 key d due, ← due]
    · exact hg.2 k d' ((dbDelThrough_cells g.db key _).2 k d' left)
  obtain ⟨g, same, outcome⟩ := aofRewriteCron_cases io.cron
    (aofCron io.flushed (activeExpireCron io begun))
  exact ⟨g, quiet _ g same (quiet _ _ (aofCron_quiet _ _) expired.1), outcome⟩

end Tick

inductive Stepped (h : Host) : Event → Host → Prop
  | quiet {e : Event} {h' : Host} (makes : mutation h e = none) (q : Quiet h h') : Stepped h e h'
  | mutated {payload : Bytes} {io : RequestIo} (r : Record)
      (asks : requestRecord h.nowRealtimeMs payload = some r)
      (makes : mutation h (.request payload io) = some r)
      (stored : (replayDispatch h.db r.decoded).2 = true) :
      Stepped h (.request payload io)
        (aofAppend io.append { h with db := (replayDispatch h.db r.decoded).1 } r).1
  | refused {payload : Bytes} {io : RequestIo} (r : Record)
      (asks : requestRecord h.nowRealtimeMs payload = some r)
      (makes : mutation h (.request payload io) = none)
      (failed : (replayDispatch h.db r.decoded).2 = false) :
      Stepped h (.request payload io) { h with db := (replayDispatch h.db r.decoded).1 }
  | cleaned {payload : Bytes} {io : RequestIo} (key : Bytes)
      (makes : mutation h (.request payload io) = none) :
      Stepped h (.request payload io) { h with db := (dbExpireClean h.db key h.nowRealtimeMs).1 }
  | started {payload : Bytes} {io : RequestIo} (makes : mutation h (.request payload io) = none)
      (idle : h.aofRewriteState = .idle) : Stepped h (.request payload io) (forkChild h)
  | ticked {nowMs nowRealtimeMs : Int} {io : TickIo} :
      Stepped h (.tick nowMs nowRealtimeMs io) (beforeSleep nowMs nowRealtimeMs io h)
  | childStepped {realtimeMs : Int} {io : ChildIo} (c : Child) (child : h.child = some c) :
      Stepped h (.child realtimeMs io)
        { h with
          child := some (childStep realtimeMs io c h.disk).1
          disk := (childStep realtimeMs io c h.disk).2 }
  | childChanged {e : Event} {h' : Host} (makes : mutation h e = none) (c c' : Child)
      (child : h.child = some c) (same : SameChild c c')
      (q : Quiet { h with child := some c' } h') : Stepped h e h'

theorem stepped_request (h : Host) (payload : Bytes) (io : RequestIo) :
    Stepped h (.request payload io) (step h (.request payload io)) := by
  by_cases runs : h.exited ∨ msgMax < payload.length
  · have same : step h (.request payload io) = h := if_pos runs
    have none : mutation h (.request payload io) = none := if_pos runs
    rw [same]
    exact .quiet none (.refl h)
  · have takes : step h (.request payload io) = (commandExecute io h payload msgMax).1 :=
      if_neg runs
    have makes : mutation h (.request payload io) = accepted h payload := if_neg runs
    rw [takes]
    have exec := commandExecute_cases io h payload msgMax
    generalize commandExecute io h payload msgMax = result at exec
    cases exec with
    | mutation r asks =>
      cases stored : (replayDispatch h.db r.decoded).2 with
      | false =>
        rw [← Prod.eta (replayDispatch h.db r.decoded), stored]
        exact .refused r asks (makes.trans (by simp [accepted, asks, Option.filter, stored])) stored
      | true =>
        rw [← Prod.eta (replayDispatch h.db r.decoded), stored]
        exact .mutated r asks (makes.trans (by simp [accepted, asks, Option.filter, stored])) stored
    | cleaned key out asks => exact .cleaned key (makes.trans (by simp [accepted, asks]))
    | started out asks idle =>
      have none : mutation h (.request payload io) = none := makes.trans (by simp [accepted, asks])
      rcases aofRewriteStart_cases io.start h with eq | eq
      · exact .quiet none (eq ▸ recordFailure_quiet h)
      · exact eq ▸ .started none idle
    | unchanged out asks => exact .quiet (makes.trans (by simp [accepted, asks])) (.refl h)

theorem stepped (h : Host) (e : Event) : Stepped h e (step h e) := by
  have still : Quiet h h := .refl h
  cases e with
  | request payload io => exact stepped_request h payload io
  | tick nowMs nowRealtimeMs io =>
    simp only [step]
    split
    · exact .quiet rfl still
    · split
      · exact .quiet rfl (by constructor <;> intros <;> rfl)
      · exact .ticked
  | child realtimeMs io =>
    simp only [step]
    split
    · exact .quiet rfl still
    · exact .childStepped _ ‹_›
  | childKilled =>
    simp only [step]
    split
    · exact .quiet rfl still
    · rename_i c child
      refine .childChanged rfl c (killChild c) child ?_ (.refl _)
      unfold killChild
      split
      · exact ⟨rfl, rfl, rfl, Or.inr rfl⟩
      · exact ⟨rfl, rfl, rfl, Or.inl rfl⟩
  | childSignal =>
    simp only [step]
    split
    · exact .quiet rfl still
    · rename_i c child
      unfold signalChild
      split
      · refine .childChanged rfl c { c with sigterm := false } child ⟨rfl, rfl, rfl, Or.inl rfl⟩ ?_
        constructor <;> intros <;> rfl
      · exact .quiet rfl still
  | signal => exact .quiet rfl (by constructor <;> intros <;> rfl)
  | shutdown =>
    simp only [step]
    split
    · exact .quiet rfl still
    · exact .quiet rfl (by constructor <;> intros <;> rfl)

theorem step_mutated {h : Host} {payload : Bytes} {io : RequestIo} {r : Record}
    (makes : mutation h (.request payload io) = some r) :
    step h (.request payload io) =
      (aofAppend io.append { h with db := (replayDispatch h.db r.decoded).1 } r).1 := by
  have out := stepped_request h payload io
  generalize step h (.request payload io) = h' at out ⊢
  cases out with
  | mutated q asks makes' stored =>
    obtain rfl : q = r := Option.some.inj (makes'.symm.trans makes)
    rfl
  | quiet none => simp [makes] at none
  | refused q asks none => simp [makes] at none
  | cleaned key none => simp [makes] at none
  | started none => simp [makes] at none
  | childChanged none => simp [makes] at none

end ByteKV.StepCases
