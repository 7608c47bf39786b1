import ByteKV.StoreInvariant

/-! The log as a list of records. While no write to it fails, the file is a header and
records that replay can read back, through any number of rewrites. -/
namespace ByteKV.LogInvariant
open Config Database HashTable FileIo AofRecord ServerState AofAppend AofRewrite ServerRun
open StepCases RewriteInvariant StoreInvariant Command AofLoad

structure Loggable (r : Record) : Prop where
  key_nulFree : NulFree r.key
  value_nulFree : NulFree r.value
  fits : r.key.length + r.value.length ≤ aofPayloadMax
  expireAt_i64 : InI64 r.expireAt

theorem exists_logRecords {rs : List Record} (h : ∀ r ∈ rs, Loggable r) :
    ∃ ls : List LogRecord, ls.map LogRecord.toRecord = rs := by
  induction rs with
  | nil => exact ⟨[], rfl⟩
  | cons r rs ih =>
    obtain ⟨ls, eq⟩ := ih fun q hq => h q (List.mem_cons_of_mem _ hq)
    obtain ⟨key, value, fits, stamp⟩ := h r List.mem_cons_self
    exact ⟨⟨r, key, value, fits, stamp⟩ :: ls, by simp [eq]⟩

theorem childRecord_loggable {db : Db} (ok : StoreOk db.cells) {e : HtEntry Bytes}
    (held : db.keyspace.get e.key = some e.val)
    (fits : (aofSerialize aofRecordMax (childRecord db e)).isSome) : Loggable (childRecord db e) := by
  obtain ⟨key, value⟩ := ok.strings e.key e.val held
  rw [aofSerialize_isSome_iff] at fits
  unfold childRecord at fits ⊢
  cases hd : db.expires.get e.key with
  | none =>
    rw [hd] at fits
    exact ⟨key, value, fits, inI64_zero⟩
  | some expire =>
    rw [hd] at fits
    exact ⟨key, value, fits, (ok.stamps e.key expire hd).2⟩

theorem snapshot_loggable {clocks : List Int} {db : Db} (ok : StoreOk db.cells)
    {es : List (HtEntry Bytes)} {rs : List Record} (snap : SnapshotOf clocks db es rs)
    (held : ∀ e ∈ es, db.keyspace.get e.key = some e.val) : ∀ r ∈ rs, Loggable r := by
  induction snap with
  | nil => simp
  | skip now read dead _ ih => exact ih fun e he => held e (List.mem_cons_of_mem _ he)
  | take fits _ ih =>
    intro r hr
    rcases List.mem_cons.mp hr with rfl | hr
    · exact childRecord_loggable ok (held _ List.mem_cons_self) fits
    · exact ih (fun e he => held e (List.mem_cons_of_mem _ he)) r hr

theorem entries_held (db : Db) : ∀ e ∈ db.keyspace.entries, db.keyspace.get e.key = some e.val :=
  fun _ he => db.keyspace.mem_entries_iff.mp he

structure Sound (h : Host) : Prop where
  rewrite : RewriteInv h
  stores : Stores StoreOk h
  appended : ∀ r ∈ h.appended, Loggable r

def LogWhole (h : Host) : Prop :=
  ∃ createdMs rs, (∀ r ∈ rs, Loggable r) ∧ h.live = logFile createdMs rs

theorem LogWhole.same {h h' : Host} (whole : LogWhole h) (live : h'.live = h.live) :
    LogWhole h' := by
  rw [LogWhole, live]
  exact whole

theorem appended_loggable {io : AppendIo} {r : Record} {h h' : Host}
    (all : ∀ q ∈ h.appended, Loggable q)
    (sound : WellFormed r) (appended : Appended io r h h') :
    ∀ q ∈ h'.appended, Loggable q := by
  cases appended with
  | unlogged off same => exact same ▸ all
  | torn buf k fault short fits eq => exact eq ▸ all
  | whole buf fits live grown inactive active =>
    intro q hq
    rw [grown] at hq
    rcases List.mem_append.mp hq with hq | hq
    · exact all q hq
    · have room : r.key.length + r.value.length ≤ aofPayloadMax :=
        aofSerialize_isSome_iff.mp (by rw [fits]; rfl)
      exact List.mem_singleton.mp hq ▸ ⟨sound.1, sound.2.1, room, sound.2.2⟩

namespace Sound
variable {h h' : Host}

theorem retimed (inv : Sound h) {nowMs nowRealtimeMs : Int} {cronloops : Nat} :
    Sound { h with
      nowMs := nowMs, nowRealtimeMs := nowRealtimeMs, cronloops := cronloops } :=
  ⟨inv.rewrite.retimed, ⟨inv.stores.store, inv.stores.fork⟩, inv.appended⟩

theorem swept (inv : Sound h) (key released : Bytes) :
    Sound { h with db := (dbDelThrough h.db key released).1 } := by
  exact ⟨inv.rewrite.withDb _,
    ⟨inv.stores.store.sub (delThrough_sub h.db key released), inv.stores.fork⟩, inv.appended⟩

theorem cron (inv : Sound h) (outcome : CronOutcome h h') : Sound h' :=
  ⟨inv.rewrite.cron outcome, inv.stores.cron outcome, outcome.appended ▸ inv.appended⟩

theorem quiet (inv : Sound h) (q : Quiet h h') : Sound h' := inv.cron (.quiet q)

theorem step (inv : Sound h) (e : Event) : Sound (step h e) := by
  refine ⟨rewriteInv_step inv.rewrite e,
    stores_step StoreOk.kept inv.stores (fun _ makes => mutation_wellFormed makes)
      (sweepKeeps_of_sub StoreOk.sub h e), ?_⟩
  have out := stepped h e
  generalize ServerRun.step h e = h' at out ⊢
  cases out with
  | quiet _ q => exact q.appended ▸ inv.appended
  | @mutated payload io r asks makes stored =>
    have kept : ∀ q ∈ { h with db := (replayDispatch h.db r.decoded).1 }.appended, Loggable q :=
      inv.appended
    exact appended_loggable kept (requestRecord_wellFormed asks) (aofAppend_frame io.append _ r).2
  | refused | cleaned | started => exact inv.appended
  | @ticked nowMs nowRealtimeMs io =>
    obtain ⟨g, hg, outcome⟩ := beforeSleep_cases nowMs io h (I := Sound) inv.retimed
      (fun g key _ _ hg => hg.swept key _) (fun g g' q hg => hg.quiet q)
    exact (hg.cron outcome).appended
  | childStepped c hc => exact inv.appended
  | childChanged makes c c' hc same q => exact q.appended ▸ inv.appended

theorem run (inv : Sound h) (events : List Event) : Sound (run h events) :=
  Transition.run_invariant_always (I := Sound) (fun _ e now => now.step e) inv events

theorem whole_cron (inv : Sound h) (whole : LogWhole h) (outcome : CronOutcome h h') :
    LogWhole h' := by
  cases outcome with
  | quiet q => exact whole.same q.live
  | started idle eq => exact eq ▸ whole
  | ended busy stopped => exact whole.same (stopped.live inv.rewrite.disk)
  | installed c ino done =>
    obtain ⟨createdMs, snapshot, snap, bytes⟩ := inv.rewrite.installed_live done
    refine ⟨createdMs, _, fun r hr => ?_, bytes⟩
    rcases List.mem_append.mp hr with hr | hr
    · exact snapshot_loggable (inv.stores.fork c done.child) snap (entries_held c.db) r hr
    · exact inv.appended r (List.mem_of_mem_drop hr)

end Sound

def LogWritten : Event → Prop
  | .request _ io => .error ∉ io.append.writes
  | _ => True

theorem logWhole_append {io : AppendIo} {r : Record} {h h' : Host} (whole : LogWhole h)
    (ok : .error ∉ io.writes) (sound : WellFormed r)
    (appended : Appended io r h h') : LogWhole h' := by
  cases appended with
  | unlogged off same => exact same ▸ whole
  | torn buf k fault short fits eq => simp [faultAfter_eq_none ok] at fault
  | whole buf fits live grown inactive active =>
    have loggable : Loggable r :=
      ⟨sound.1, sound.2.1, aofSerialize_isSome_iff.mp (by rw [fits]; rfl), sound.2.2⟩
    obtain ⟨createdMs, rs, all, bytes⟩ := whole
    refine ⟨createdMs, rs ++ [r], fun q hq => ?_, ?_⟩
    · exact (List.mem_append.mp hq).elim (all q) fun hq => List.mem_singleton.mp hq ▸ loggable
    · rw [live, bytes, aofSerialize_bytes fits, logFile, logFile, logBytes_append,
        logBytes_singleton, List.append_assoc]

structure Logging (h : Host) : Prop extends Sound h where
  live : LogWhole h

namespace Logging
variable {h : Host}

theorem step {e : Event} (inv : Logging h) (written : LogWritten e) : Logging (step h e) := by
  refine ⟨inv.toSound.step e, ?_⟩
  have out := stepped h e
  generalize ServerRun.step h e = h' at out ⊢
  cases out with
  | quiet _ q => exact inv.live.same q.live
  | @mutated payload io r asks makes stored =>
    have kept : LogWhole { h with db := (replayDispatch h.db r.decoded).1 } := inv.live
    exact logWhole_append kept written (requestRecord_wellFormed asks)
      (aofAppend_frame io.append _ r).2
  | refused | cleaned | started => exact inv.live
  | @ticked nowMs nowRealtimeMs io =>
    obtain ⟨g, ⟨sound, whole⟩, outcome⟩ := beforeSleep_cases nowMs io h
      (I := fun g => Sound g ∧ LogWhole g) ⟨inv.retimed, inv.live⟩
      (fun g key _ _ hg => ⟨hg.1.swept key _, hg.2⟩)
      (fun g g' q hg => ⟨hg.1.quiet q, hg.2.same q.live⟩)
    exact sound.whole_cron whole outcome
  | @childStepped realtimeMs io c hc =>
    exact inv.live.same
      (childStep_spec inv.rewrite.disk realtimeMs io (inv.rewrite.progress c hc)).2.1
  | childChanged makes c c' hc same q =>
    have changed : LogWhole { h with child := some c' } := inv.live
    exact changed.same q.live

theorem run {events : List Event} (inv : Logging h) (written : ∀ e ∈ events, LogWritten e) :
    Logging (run h events) := by
  refine Transition.run_invariant (P := fun _ e => LogWritten e)
    (fun _ _ inv ok => inv.step ok) inv ?_
  rw [Transition.along_iff_forall]
  rintro before e after rfl
  exact written e (by simp)

end Logging

/-! The start of a run. -/

theorem initServer_sound {config : ServerConfig} {disk : Disk}
    {nowMs nowRealtimeMs realtimeMs : Int} {io : BootIo} {h : Host} (wf : disk.WellFormed)
    (enabled : config.aofEnabled = true)
    (boot : initServer config disk nowMs nowRealtimeMs realtimeMs io = some h) : Sound h := by
  obtain ⟨booted, inv⟩ := initServer_spec boot
  exact ⟨inv wf enabled, initServer_stores StoreOk.kept (fun _ ok => ok) boot,
    by simp [booted.appended]⟩

/-- The disk has no log yet, and the header of a new one gets written. -/
structure Fresh (config : ServerConfig) (disk : Disk) (io : BootIo) : Prop where
  enabled : config.aofEnabled = true
  wellFormed : disk.WellFormed
  absent : disk.aof = none
  statted : io.statted = true

theorem openLog_fresh {io : BootIo} {realtimeMs : Int} {h h' : Host} (statted : io.statted = true)
    (absent : h.disk.aof = none) (done : openLog io realtimeMs h = some h') :
    h'.live = aofFileHeader realtimeMs := by
  have blank : h.disk.openAof.1.data h.disk.openAof.2 = [] := by
    simp [Disk.openAof, absent, Disk.data, Inode.empty]
  unfold openLog at done
  split at done
  · simp at done
  · simp only [statted, Host.live, blank, if_true, Bool.true_eq_false, if_false] at done
    split at done
    · simp at done
    · rename_i disk hw
      obtain rfl := Disk.writeAll_true hw
      obtain rfl := Option.some.inj done
      split <;> simp [Host.live, blank]

theorem fresh_boot {config : ServerConfig} {disk : Disk} {io : BootIo}
    {nowMs nowRealtimeMs realtimeMs : Int} {h : Host} (fresh : Fresh config disk io)
    (boot : initServer config disk nowMs nowRealtimeMs realtimeMs io = some h) :
    h.db = dbCreate nowMs ∧ h.nowRealtimeMs = nowRealtimeMs ∧ h.child = none ∧
      h.live = logFile realtimeMs [] ∧ Logging h := by
  have boot' := boot
  have replayed : replayAof io (emptyHost config disk nowMs nowRealtimeMs) =
      some (emptyHost config disk nowMs nowRealtimeMs) := by
    simp [replayAof, emptyHost, fresh.absent, aofLoad]
  simp only [initServer, fresh.enabled, if_true, replayed, Option.bind_some] at boot
  have live := openLog_fresh fresh.statted fresh.absent boot
  obtain ⟨disk', ino, lastSize, rfl, -⟩ := openLog_spec boot
  have header : logFile realtimeMs [] = aofFileHeader realtimeMs := by simp [logFile]
  exact ⟨rfl, rfl, rfl, live.trans header.symm, initServer_sound fresh.wellFormed fresh.enabled boot',
    realtimeMs, [], by simp, live.trans header.symm⟩

end ByteKV.LogInvariant
