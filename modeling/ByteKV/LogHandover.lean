import ByteKV.RewriteStates

/-! The end of a rewrite whose child has done its work: either the temp file, with the
diff behind it, becomes the log, or the log stays as it was. -/
namespace ByteKV.LogHandover
open Config Database FileIo AofRecord ServerState AofAppend AofRewrite ServerRun
open StepCases RewriteInvariant RewriteStates

/-- One of the calls of `aof_rewrite_finalize` fails, a write after any number of bytes. -/
def Fails (io : FinalizeIo) (h : Host) : Prop :=
  io.opened = false ∨ ¬ Completes io.writes h.diff.length ∨ io.flushed = false ∨
    io.reopened = false ∨ io.renamed = false

section Finalize
variable {io : FinalizeIo} {h : Host}

theorem aofRewriteFinalize_of_fails (fails : Fails io h) :
    ∃ g, Prepared h g ∧ aofRewriteFinalize io h = discard io.unlinked g := by
  unfold aofRewriteFinalize
  split
  · rename_i ino temp opened
    rcases hw : h.disk.writeAll ino io.writes h.diff with ⟨disk, _ | _⟩
    · obtain ⟨out, rfl⟩ := Disk.writeAll_false hw
      exact ⟨_, .written ino temp out, rfl⟩
    · have whole : Completes io.writes h.diff.length :=
        writeAll_ok_iff.mp (congrArg Prod.snd hw)
      obtain rfl := Disk.writeAll_true hw
      cases flushed : io.flushed with
      | false => exact ⟨_, .written ino temp h.diff, rfl⟩
      | true =>
        have late : io.reopened = false ∨ io.renamed = false := by
          simpa [Fails, opened, whole, flushed] using fails
        refine ⟨flushDiff ino h, .flushed ino temp, ?_⟩
        simp only [durableFlush, if_true]
        rcases late with reopened | renamed
        · rw [if_pos reopened]
          rfl
        · rw [if_pos renamed, ite_self]
          rfl
  · exact ⟨h, .untouched, rfl⟩

theorem aofRewriteFinalize_of_succeeds {ino : Nat} (temp : h.disk.temp = some ino)
    (ok : ¬ Fails io h) : aofRewriteFinalize io h = install io.statted ino (flushDiff ino h) := by
  simp only [Fails, not_or, not_not, Bool.not_eq_false] at ok
  obtain ⟨opened, whole, flushed, reopened, renamed⟩ := ok
  simp only [aofRewriteFinalize, temp, opened, Disk.writeAll, writeAll_of_completes whole, flushed,
    durableFlush, reopened, renamed, if_true, Bool.true_eq_false, if_false]
  rfl

end Finalize

/-- The log and the store are what they were, and the rewrite is over. -/
structure Kept (unlinked : Bool) (h h' : Host) : Prop where
  aofFd : h'.aofFd = h.aofFd
  name : h'.disk.aof = h.disk.aof
  inode : h'.disk.inode h.aofFd = h.disk.inode h.aofFd
  live : h'.live = h.live
  db : h'.db = h.db
  temp : unlinked = true → h'.disk.temp = none
  state : h'.aofRewriteState = .idle
  buf : h'.aofRewriteBuf = none
  len : h'.aofRewriteLen = 0
  failed : h'.aofRewritesFailed = h.aofRewritesFailed + 1
  streak : h'.aofRewriteFailedStreak = h.aofRewriteFailedStreak + 1
  completed : h'.aofRewritesCompleted = h.aofRewritesCompleted

/-- The descriptor refers to the file under the name of the log, and so does the next
append. -/
structure HandedOver (h' : Host) : Prop where
  name : h'.disk.aof = some h'.aofFd
  file : h'.file = some h'.live
  lands : ∀ (io : AppendIo) (r : Record), ∃ out,
    (aofAppend io h' r).1.live = h'.live ++ out ∧ (aofAppend io h' r).1.file = some (h'.live ++ out)
  whole : ∀ (io : AppendIo) (r : Record) (buf : Bytes), aofSerialize aofRecordMax r = some buf →
    Completes io.writes buf.length → (aofAppend io h' r).1.file = some (h'.live ++ buf)

theorem prepared_log {h g : Host} (prepared : Prepared h g)
    (other : h.disk.temp ≠ some h.aofFd) :
    g.aofFd = h.aofFd ∧ g.disk.aof = h.disk.aof ∧ g.disk.inode h.aofFd = h.disk.inode h.aofFd ∧
      g.db = h.db ∧ g.aofRewritesFailed = h.aofRewritesFailed ∧
      g.aofRewriteFailedStreak = h.aofRewriteFailedStreak ∧
      g.aofRewritesCompleted = h.aofRewritesCompleted := by
  have ne {ino : Nat} (temp : h.disk.temp = some ino) : h.aofFd ≠ ino := fun same =>
    other (same ▸ temp)
  cases prepared with
  | untouched => exact ⟨rfl, rfl, rfl, rfl, rfl, rfl, rfl⟩
  | written ino temp out =>
    exact ⟨rfl, rfl, Function.update_of_ne (ne temp) _ _, rfl, rfl, rfl, rfl⟩
  | flushed ino temp =>
    have flushed := Function.update_of_ne (ne temp) ((h.disk.append ino h.diff).inode ino).flushed
      (h.disk.append ino h.diff).inode
    exact ⟨rfl, rfl, flushed.trans (Function.update_of_ne (ne temp) _ _), rfl, rfl, rfl, rfl⟩

theorem discard_kept {h g : Host} (prepared : Prepared h g) (other : h.disk.temp ≠ some h.aofFd)
    (unlinked : Bool) : Kept unlinked h (discard unlinked g) := by
  obtain ⟨aofFd, name, inode, db, failed, streak, completed⟩ := prepared_log prepared other
  have live : g.live = h.live := by
    rw [Host.live, Host.live, aofFd, Disk.data, inode, Disk.data]
  have counted := congrArg (· + 1) failed
  have again := congrArg (· + 1) streak
  cases unlinked with
  | false =>
    exact ⟨aofFd, name, inode, live, db, fun off => absurd off Bool.false_ne_true, rfl, rfl, rfl,
      counted, again, completed⟩
  | true =>
    exact ⟨aofFd, name, inode, live, db, fun _ => rfl, rfl, rfl, rfl, counted, again, completed⟩

theorem handedOver_of_named {h : Host} (on : h.config.aofEnabled = true)
    (name : h.disk.aof = some h.aofFd) : HandedOver h := by
  have file (g : Host) (named : g.disk.aof = some g.aofFd) : g.file = some g.live := by
    rw [Host.file, named]
    rfl
  have named (io : AppendIo) (r : Record) :
      (aofAppend io h r).1.file = some (aofAppend io h r).1.live := by
    have frame := (aofAppend_frame io h r).1
    refine file _ ?_
    rw [frame.disk.aof, frame.aofFd, name]
  refine ⟨name, file h name, fun io r => ?_, fun io r buf fits full => ?_⟩
  · obtain ⟨out, grown⟩ : ∃ out, (aofAppend io h r).1.live = h.live ++ out := by
      cases fits : aofSerialize aofRecordMax r with
      | none => exact ⟨[], by rw [aofAppend_unlogged (Or.inr fits), List.append_nil]⟩
      | some buf =>
        by_cases full : Completes io.writes buf.length
        · exact ⟨buf, aofAppend_live on fits full⟩
        · simp only [Completes, not_forall, not_le] at full
          obtain ⟨k, fault, short⟩ := full
          refine ⟨buf.take k, ?_⟩
          rw [aofAppend_fault on fits fault short]
          exact Disk.append_data _ _ _
    exact ⟨out, grown, by rw [named, grown]⟩
  · rw [named, aofAppend_live on fits full]

/-! Where `aof_rewrite_finalize` is called. -/

/-- The states of the event loop, and those in which a tick comes to its cron. -/
def Reached (start g : Host) : Prop :=
  ∃ events, g = run start events ∨ ∃ nowMs nowRealtimeMs tick,
    g = beforeCron nowMs nowRealtimeMs tick (run start events)

/-- The cron finds a rewrite under way whose child has exited with status 0. -/
structure Finalizes (start g : Host) : Prop where
  reached : Reached start g
  enabled : g.config.aofEnabled = true
  active : g.aofRewriteState = .active
  exited : ∃ c, g.child = some c ∧ c.phase = .exited 0

def waited (g : Host) : Host := { g with lastCheckMs := g.nowMs, child := none }

theorem beforeCron_rewriteInv {h : Host} (inv : RewriteInv h) (nowMs nowRealtimeMs : Int)
    (tick : TickIo) : RewriteInv (beforeCron nowMs nowRealtimeMs tick h) := by
  let begun : Host :=
    { h with nowMs := nowMs, nowRealtimeMs := nowRealtimeMs, cronloops := h.cronloops + 1 }
  have swept : RewriteInv (activeExpireCron tick begun) :=
    activeExpireCron_induct (fun g key _ inv => inv.withDb _) begun rfl inv.retimed
  exact swept.quiet (aofCron_quiet tick.flushed _)

theorem Reached.config {start g : Host} (reached : Reached start g) : g.config = start.config := by
  obtain ⟨events, rfl | ⟨nowMs, nowRealtimeMs, tick, rfl⟩⟩ := reached
  · exact config_run start events
  · exact (beforeCron_untouched nowMs nowRealtimeMs tick (run start events)).config.trans
      (config_run start events)

theorem Reached.rewriteInv {start g : Host} (reached : Reached start g) (inv : RewriteInv start) :
    RewriteInv g := by
  obtain ⟨events, rfl | ⟨nowMs, nowRealtimeMs, tick, rfl⟩⟩ := reached
  · exact rewriteInv_run inv events
  · exact beforeCron_rewriteInv (rewriteInv_run inv events) nowMs nowRealtimeMs tick

/-- A finalize that fails leaves the log and the store alone, and one that succeeds hands
the log over. -/
theorem finalize_keeps_or_hands_over {config : ServerConfig} {disk : Disk} (wf : disk.WellFormed)
    {nowMs nowRealtimeMs realtimeMs : Int} {bootIo : BootIo} {start : Host}
    (boot : initServer config disk nowMs nowRealtimeMs realtimeMs bootIo = some start) {g : Host}
    (finalizes : Finalizes start g) (io : FinalizeIo) :
    (Fails io (waited g) → Kept io.unlinked (waited g) (aofRewriteFinalize io (waited g))) ∧
      (¬ Fails io (waited g) → HandedOver (aofRewriteFinalize io (waited g))) := by
  have booted := initServer_spec boot
  have enabled : config.aofEnabled = true := by
    rw [← booted.1.config, ← finalizes.reached.config]
    exact finalizes.enabled
  have inv := finalizes.reached.rewriteInv (booted.2 wf enabled)
  obtain ⟨c, child, phase⟩ := finalizes.exited
  obtain ⟨ino, temp⟩ : ∃ ino, g.disk.temp = some ino := by
    have progress := inv.progress c child
    rw [Progress, phase] at progress
    obtain ⟨ino, -, -, temp, -⟩ := progress
    exact ⟨ino, temp⟩
  constructor
  · intro fails
    obtain ⟨prepared, reaches, eq⟩ := aofRewriteFinalize_of_fails fails
    rw [eq]
    exact discard_kept reaches (fun same => (inv.disk.temp _ same).2 rfl) io.unlinked
  · intro ok
    have installed : aofRewriteFinalize io (waited g) =
        install io.statted ino (flushDiff ino (waited g)) := aofRewriteFinalize_of_succeeds temp ok
    rw [installed]
    exact handedOver_of_named finalizes.enabled temp

/-- A rewrite of two keys, up to the end of its child; behind its snapshot comes a diff of two
records. -/
def writtenRewrite : List Event :=
  [.request (ascii "SET a 1") {}, .request (ascii "SETEX b 9 2") {}, .request rewriteRequest {},
    .child 0 {}, .child 0 {}, .child 0 {}, .request (ascii "SET c 3") {},
    .request (ascii "DEL a") {}, .child 0 {}]

def exitedWell : ChildPhase → Bool
  | .exited 0 => true
  | _ => false

theorem exitedWell_phase {phase : ChildPhase} (well : exitedWell phase = true) :
    phase = .exited 0 := by
  unfold exitedWell at well
  split at well
  · rfl
  · cases well

theorem writtenRewrite_finalizes :
    Finalizes (firstHost {}) (run (firstHost {}) writtenRewrite) := by
  have ended :
      (run (firstHost {}) writtenRewrite).child.any (fun c => exitedWell c.phase) = true := by
    decide +kernel
  obtain ⟨c, child, phase⟩ := Option.any_eq_true _ _ |>.mp ended
  exact ⟨⟨writtenRewrite, Or.inl rfl⟩, by decide +kernel, by decide +kernel, c, child,
    exitedWell_phase phase⟩

/-- It is handed over, or a write of the diff fails in its second record, or the rename fails. -/
theorem finalize_writtenRewrite :
    HandedOver (aofRewriteFinalize {} (waited (run (firstHost {}) writtenRewrite))) ∧
      Kept true (waited (run (firstHost {}) writtenRewrite))
        (aofRewriteFinalize { writes := [.wrote 40, .error] }
          (waited (run (firstHost {}) writtenRewrite))) ∧
      Kept true (waited (run (firstHost {}) writtenRewrite))
        (aofRewriteFinalize { renamed := false } (waited (run (firstHost {}) writtenRewrite))) := by
  have diff : (waited (run (firstHost {}) writtenRewrite)).diff.length = 57 := by decide +kernel
  have finalizes := writtenRewrite_finalizes
  refine ⟨(finalize_keeps_or_hands_over Disk.blank_wellFormed (firstHost_boot {}) finalizes {}).2
      (by simp [Fails, Completes, faultAfter]),
    (finalize_keeps_or_hands_over Disk.blank_wellFormed (firstHost_boot {}) finalizes
      { writes := [.wrote 40, .error] }).1 (Or.inr (Or.inl ?_)),
    (finalize_keeps_or_hands_over Disk.blank_wellFormed (firstHost_boot {}) finalizes
      { renamed := false }).1 (by simp [Fails])⟩
  rw [diff]
  exact fun completes => absurd (completes 40 rfl) (by decide)

end ByteKV.LogHandover
