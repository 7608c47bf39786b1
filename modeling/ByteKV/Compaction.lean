import ByteKV.LogTracking

/-! What a rewrite puts in place of the log: byte for byte, for any outcomes of the
system calls, and then as replay reads it. -/
namespace ByteKV.Compaction
open Config Database HashTable FileIo AofRecord ServerState AofAppend AofRewrite ServerRun
open StepCases RewriteInvariant StoreInvariant LogInvariant LogTracking AofLoad Recovery ExpiringLog

/-- Whenever a step installs a rewrite, the rewrite has been active since its fork,
and the new log is the child's snapshot of the store at the fork, with the records
appended since behind it. -/
theorem install_snapshot_and_diff (config : ServerConfig) (disk : Disk) (wf : disk.WellFormed)
    (nowMs nowRealtimeMs realtimeMs : Int) (io : BootIo) (h₀ : Host)
    (boot : initServer config disk nowMs nowRealtimeMs realtimeMs io = some h₀)
    (events : List Event) (e : Event)
    (installs : (step (run h₀ events) e).aofRewritesCompleted ≠
      (run h₀ events).aofRewritesCompleted) :
    (run h₀ events).aofRewriteState = .active ∧
    ∃ before during, events = before ++ during ∧ Forked (run h₀ before) ∧
      (∀ p q, during = p ++ q → (run (run h₀ before) p).aofRewriteState = .active) ∧
      ∃ c createdMs snapshot appended,
        (run h₀ events).child = some c ∧ c.phase = .exited 0 ∧
        SnapshotOf c.clocks (run h₀ before).db (run h₀ before).db.keyspace.entries snapshot ∧
        (run h₀ events).appended = (run h₀ before).appended ++ appended ∧
        (step (run h₀ events) e).live = logFile createdMs (snapshot ++ appended) ∧
        (step (run h₀ events) e).disk.aof = some (step (run h₀ events) e).aofFd := by
  obtain ⟨booted, inv₀⟩ := initServer_spec boot
  obtain ⟨g, c, ino, steady, inv, done⟩ := (step_completed _ e).2.resolve_left installs
  have enabled : config.aofEnabled = true := by
    rw [← booted.config, ← config_run h₀ events, ← steady.config]
    exact done.enabled
  have inv' := inv (rewriteInv_run (inv₀ wf enabled) events)
  have active := steady.state ▸ done.active
  have child : (run h₀ events).child = some c := steady.child ▸ done.child
  obtain ⟨before, during, split, forked, db, mark, since⟩ :=
    exists_fork booted.state events active child
  obtain ⟨createdMs, snapshot, snap, live⟩ := inv'.installed_live done
  -- The history splits at the fork, and the diff is its second part.
  obtain ⟨appended, history⟩ : (run h₀ before).appended <+: (run h₀ events).appended := by
    rw [split, run_append]
    exact appended_prefix_run _ during
  have since_fork : g.appended.drop c.mark = appended := by
    rw [steady.appended, ← history, mark, List.drop_left]
  refine ⟨active, before, during, split, forked, since, c, createdMs, snapshot, appended, child,
    done.phase, db ▸ snap, history.symm, ?_, done.aof.trans (congrArg some done.aofFd.symm)⟩
  rw [live, since_fork]

/-- SET, BGREWRITEAOF, three steps of the child with another SET before the last. -/
def rewriteEvents : List Event :=
  [.request (ascii "SET a 1") {}, .request (ascii "BGREWRITEAOF") {}, .child 0 {}, .child 0 {},
    .request (ascii "SET b 2") {}, .child 0 {}]

theorem install_snapshot_and_diff_sets :
    (step (run (firstHost {}) rewriteEvents) (.tick 1000 1000 {})).aofRewritesCompleted ≠
        (run (firstHost {}) rewriteEvents).aofRewritesCompleted ∧
      (run (firstHost {}) rewriteEvents).aofRewriteState = .active := by
  have installs : (step (run (firstHost {}) rewriteEvents) (.tick 1000 1000 {})).aofRewritesCompleted ≠
      (run (firstHost {}) rewriteEvents).aofRewritesCompleted := by decide
  exact ⟨installs, (install_snapshot_and_diff {} .blank Disk.blank_wellFormed 0 0 0 firstBoot _
    (firstHost_boot {}) rewriteEvents (.tick 1000 1000 {}) installs).1⟩

/-! The new log at the time it is installed. -/

theorem tracks_of_forked {t : Int} {h : Host} (forked : Forked h)
    (enabled : h.config.aofEnabled = true)
    (clock : h.nowRealtimeMs ≤ t) (consistent : h.db.cells.Consistent) : Tracks t h := by
  obtain ⟨-, pid, child⟩ := forked
  have only (c : Child) (hc : h.child = some c) : c = ⟨pid, h.db, h.appended.length, [], .opening,
      false⟩ := Option.some.inj (hc.symm.trans child)
  refine ⟨enabled, clock, fun c hc => ?_, ⟨consistent, fun c hc => ?_⟩, fun _ c hc => ?_⟩
  · simp [only c hc]
  · exact only c hc ▸ consistent
  · rw [only c hc, List.drop_length]
    exact .refl _

/-- A rewrite whose steps since the fork are all safe for the time `t` of its
installation leaves a log that loads clean and answers as the live store does. -/
theorem install_agrees {config : ServerConfig} {disk : Disk} {bootIo : BootIo}
    {nowMs nowRealtimeMs realtimeMs : Int} {h : Host} (wf : disk.WellFormed)
    (enabled : config.aofEnabled = true)
    (boot : initServer config disk nowMs nowRealtimeMs realtimeMs bootIo = some h)
    (before during : List Event) (unclobbered : Transition.Along step Unclobbered h before)
    (forked : Forked (run h before)) (t tickMs : Int) (io : TickIo)
    (clock : (run h before).nowRealtimeMs ≤ t)
    (safe : Transition.Along step (SafeStep t) (run h before) (during ++ [.tick tickMs t io]))
    (installs : (step (run h (before ++ during)) (.tick tickMs t io)).aofRewritesCompleted ≠
      (run h (before ++ during)).aofRewritesCompleted)
    (startMs : Int) {junk : Bytes} (hjunk : junk.length = aofRecordMax) {loadIo : LoadIo}
    (hio : loadIo.Ok) :
    let after := step (run h (before ++ during)) (.tick tickMs t io)
    ∃ out, aofLoad after.file (dbCreate startMs) (fun _ => t) junk loadIo = .loaded out ∧
      Clean after.live out ∧
      ∀ k, (dbGet out.db k t).2 = (dbGet after.db k t).2 ∧
        (dbGetTtl out.db k t).2 = (dbGetTtl after.db k t).2 := by
  have sound := initServer_sound wf enabled boot
  have on : (run h before).config.aofEnabled = true := by
    rw [config_run, (initServer_spec boot).1.config, enabled]
  have consistent : Stores Cells.Consistent (run h before) :=
    stores_run consistent_kept (initServer_stores consistent_kept (fun _ _ => trivial) boot)
      (unclobbered.mono fun _ _ same => ⟨fun _ _ => trivial, consistent_kept.sweepKeeps same⟩)
  have start : Tracks t (run h before) ∧ Sound (run h before) :=
    ⟨tracks_of_forked forked on clock consistent.store, sound.run before⟩
  obtain ⟨since, last, -⟩ := Transition.along_append.mp safe
  have whole := run_append h before during
  obtain ⟨tracks, inv⟩ : Tracks t (run h (before ++ during)) ∧ Sound (run h (before ++ during)) := by
    rw [whole]
    exact Transition.run_invariant (I := fun g => Tracks t g ∧ Sound g)
      (fun g e now safe => ⟨tracks_step now.1 now.2.rewrite safe, now.2.step e⟩) start since
  obtain ⟨out, load, clean, cells⟩ :=
    (tracks.installs inv (whole ▸ last) installs).load startMs hjunk hio
  refine ⟨out, (inv.step _).rewrite.file ▸ load, clean, fun k => ⟨?_, ?_⟩⟩
  · rw [dbGet_value, dbGet_value, cells, settle_settle]
  · rw [dbGetTtl_value, dbGetTtl_value, cells, settle_settle]

theorem install_agrees_sets :
    let after := step (run (firstHost {}) rewriteEvents) (.tick 1000 1000 {})
    ∃ out, aofLoad after.file (dbCreate 0) (fun _ => 1000) zeroed {} = .loaded out ∧
      Clean after.live out ∧
      ∀ k, (dbGet out.db k 1000).2 = (dbGet after.db k 1000).2 ∧
        (dbGetTtl out.db k 1000).2 = (dbGetTtl after.db k 1000).2 := by
  have forked : Forked (run (firstHost {}) (rewriteEvents.take 2)) := ⟨by decide, 0, rfl⟩
  refine install_agrees Disk.blank_wellFormed rfl (firstHost_boot {}) (rewriteEvents.take 2)
    (rewriteEvents.drop 2) ⟨trivial, trivial, trivial⟩ forked 1000 1000 {} (by decide) ?_ (by decide) 0
    zeroed_length .silent
  have safe : SafeStep 1000 (run (firstHost {}) (rewriteEvents.take 4))
      (.request (ascii "SET b 2") {}) := ⟨by decide, by decide⟩
  have early : (0 : Int) ≤ 1000 := by decide
  exact ⟨early, early, safe, early, ⟨le_refl _, fun _ _ => rfl⟩, trivial⟩

/-- A key whose deadline has passed but which nobody has swept: the child leaves it
out, and then a PERSIST of it succeeds. -/
def lateEvents : List Event :=
  [.request (ascii "SETEX k 1 v") {}, .tick 2000 2000 {}, .request (ascii "BGREWRITEAOF") {},
    .child 2000 {}, .child 2000 {}, .child 2000 {}, .request (ascii "PERSIST k") {}]

/-- The live store answers GET with the value, the new log does not know the key. -/
theorem install_disagrees :
    let after := step (run (firstHost lazyConfig) lateEvents) (.tick 3000 3000 {})
    after.aofRewritesCompleted = 1 ∧ (dbGet after.db (ascii "k") 3000).2 = some (ascii "v") ∧
      ∃ out, aofLoad after.file (dbCreate 0) (fun _ => 3000) zeroed {} = .loaded out ∧
        out.reason = some .replayFailed ∧ (dbGet out.db (ascii "k") 3000).2 = none := by
  let records : List LogRecord := [recordOf .persist "k" "" 0 (by decide)]
  have file : (step (run (firstHost lazyConfig) lateEvents) (.tick 3000 3000 {})).file =
      some (image 2000 records) := by decide +kernel
  have load := aofLoad_image 2000 records (Or.inl rfl) (dbCreate 0) (fun _ => 3000)
    zeroed_length .silent
  rw [List.append_nil] at load
  exact ⟨by decide, by decide, _, file ▸ load, by decide, by decide⟩

end ByteKV.Compaction
