import ByteKV.Durability

/-! Power losses. An fsync puts a file on the device, but nothing flushes a directory:
the entry of the log may come back as it was at any earlier time, and with it a file
that has been replaced since, or none at all. -/
namespace ByteKV.PowerLoss
open Config Database HashTable FileIo AofRecord ServerState AofAppend AofRewrite ServerRun
open StepCases RewriteInvariant Command LogTracking Recovery Durability

/-! Files that do not have the name of the temp file only grow, on the device too. -/

structure Keeps (d d' : Disk) : Prop where
  next : d.next ≤ d'.next
  file : ∀ ino, ino < d.next → d.temp ≠ some ino →
    d'.temp ≠ some ino ∧ d.data ino <+: d'.data ino ∧ d.synced ino ≤ d'.synced ino

namespace Keeps

theorem refl (d : Disk) : Keeps d d :=
  ⟨le_refl _, fun _ _ ht => ⟨ht, List.prefix_refl _, le_refl _⟩⟩

theorem trans {d d' d'' : Disk} (h : Keeps d d') (h' : Keeps d' d'') : Keeps d d'' := by
  refine ⟨h.next.trans h'.next, fun ino used unnamed => ?_⟩
  obtain ⟨unnamed', data, synced⟩ := h.file ino used unnamed
  obtain ⟨unnamed'', data', synced'⟩ := h'.file ino (used.trans_le h.next) unnamed'
  exact ⟨unnamed'', data.trans data', synced.trans synced'⟩

theorem append (d : Disk) (ino : Nat) (bytes : Bytes) : Keeps d (d.append ino bytes) := by
  refine ⟨le_refl _, fun other _ unnamed => ⟨unnamed, ?_⟩⟩
  by_cases same : other = ino
  · subst same
    rw [Disk.append_data, Disk.append_synced]
    exact ⟨List.prefix_append _ _, le_refl _⟩
  · have kept : (d.append ino bytes).inode other = d.inode other := Function.update_of_ne same _ _
    rw [Disk.data, Disk.synced, Disk.data, Disk.synced, kept]
    exact ⟨List.prefix_refl _, le_refl _⟩

theorem flush (d : Disk) (ino : Nat) : Keeps d (d.flush ino) := by
  refine ⟨le_refl _, fun other _ unnamed => ⟨unnamed, ?_, ?_⟩⟩
  · rw [Disk.flush_data]
  · by_cases same : other = ino
    · subst same
      rw [Disk.flush_synced]
      exact d.synced_le other
    · have kept : (d.flush ino).inode other = d.inode other := Function.update_of_ne same _ _
      rw [Disk.synced, Disk.synced, kept]

theorem writeAll (d : Disk) (ino : Nat) (outs : List WriteOutcome) (buf : Bytes) :
    Keeps d (d.writeAll ino outs buf).1 := append d ino _

theorem unlinkTemp (d : Disk) : Keeps d d.unlinkTemp :=
  ⟨le_refl _, fun _ _ _ => ⟨by simp [Disk.unlinkTemp], List.prefix_refl _, le_refl _⟩⟩

theorem renameTemp (d : Disk) : Keeps d d.renameTemp :=
  ⟨le_refl _, fun _ _ _ => ⟨by simp [Disk.renameTemp], List.prefix_refl _, le_refl _⟩⟩

theorem createTemp (d : Disk) : Keeps d d.createTemp.1 := by
  unfold Disk.createTemp
  split
  · rename_i ino named
    refine ⟨le_refl _, fun other _ unnamed => ⟨unnamed, ?_⟩⟩
    have other_ne : other ≠ ino := fun same => unnamed (same ▸ named)
    simp only [Disk.data, Disk.synced, Function.update_of_ne other_ne]
    exact ⟨List.prefix_refl _, le_refl _⟩
  · refine ⟨Nat.le_succ _, fun other used _ => ⟨?_, ?_⟩⟩
    · simpa using used.ne'
    · simp only [Disk.data, Disk.synced, Function.update_of_ne used.ne]
      exact ⟨List.prefix_refl _, le_refl _⟩

end Keeps

def Flushed (h : Host) : Prop := h.disk.synced h.aofFd = h.live.length

structure Preserves (h h' : Host) : Prop where
  keeps : Keeps h.disk h'.disk
  log : h'.aofFd = h.aofFd ∨ Flushed h'

namespace Preserves
variable {h h' h'' : Host}

theorem of_disk (keeps : Keeps h.disk h'.disk) (aofFd : h'.aofFd = h.aofFd) : Preserves h h' :=
  ⟨keeps, Or.inl aofFd⟩

theorem of_same (disk : h'.disk = h.disk) (aofFd : h'.aofFd = h.aofFd) : Preserves h h' :=
  of_disk (disk ▸ .refl _) aofFd

theorem after (p : Preserves h' h'') (keeps : Keeps h.disk h'.disk) (aofFd : h'.aofFd = h.aofFd) :
    Preserves h h'' :=
  ⟨keeps.trans p.keeps, p.log.imp_left fun same => same.trans aofFd⟩

end Preserves

/-! One function after the other. -/

theorem aofMaybeFsyncAlways_keeps (h : Host) (flushed : Bool) :
    Keeps h.disk (aofMaybeFsyncAlways h flushed).1.disk := by
  rw [aofMaybeFsyncAlways_disk]
  split
  · exact .flush _ _
  · exact .refl _

theorem aofAppend_keeps (io : AppendIo) (h : Host) (r : Record) :
    Keeps h.disk (aofAppend io h r).1.disk := by
  have attempt := aofAppend_attempt io h r
  generalize (aofAppend io h r).1 = h' at attempt ⊢
  cases attempt with
  | unlogged off => exact .refl _
  | torn buf k on fits fault short => exact .append _ _ _
  | whole buf on fits full =>
    refine Keeps.trans ?_ (aofMaybeFsyncAlways_keeps _ _)
    rw [(writtenWhole_spec io h r buf).2.1]
    exact .append _ _ _

theorem aofRewriteStart_same (io : StartIo) (h : Host) :
    (aofRewriteStart io h).1.disk = h.disk ∧ (aofRewriteStart io h).1.aofFd = h.aofFd := by
  rcases aofRewriteStart_cases io h with eq | eq <;> rw [eq]
  · exact ⟨rfl, rfl⟩
  · exact ⟨rfl, rfl⟩

theorem commandExecute_preserves (io : RequestIo) (h : Host) (payload : Bytes) (outCap : Nat) :
    Preserves h (commandExecute io h payload outCap).1 := by
  have exec := commandExecute_cases io h payload outCap
  generalize commandExecute io h payload outCap = result at exec
  cases exec with
  | mutation r asks =>
    rcases replayDispatch h.db r.decoded with ⟨db, _ | _⟩
    · exact .of_same rfl rfl
    · let stored : Host := { h with db := db }
      exact .of_disk (aofAppend_keeps io.append stored r) (aofAppend_frame io.append stored r).1.aofFd
  | cleaned => exact .of_same rfl rfl
  | started =>
    obtain ⟨disk, aofFd⟩ := aofRewriteStart_same io.start h
    exact .of_same disk aofFd
  | unchanged => exact .of_same rfl rfl

theorem aofCron_keeps (flushed : Bool) (h : Host) :
    Keeps h.disk (aofCron flushed h).disk := by
  rcases aofCron_cases flushed h with same | same | same <;> rw [same]
  · exact .refl _
  · exact .refl _
  · exact .flush _ _

theorem discard_preserves (unlinked : Bool) (h : Host) : Preserves h (discard unlinked h) := by
  cases unlinked with
  | false => exact .of_same rfl rfl
  | true => exact .of_disk (.unlinkTemp _) rfl

theorem flushDiff_keeps (ino : Nat) (h : Host) : Keeps h.disk (flushDiff ino h).disk :=
  (Keeps.append _ _ _).trans (.flush _ _)

theorem install_flushed (statted : Bool) (ino : Nat) (h : Host) :
    Flushed (install statted ino (flushDiff ino h)) := by
  have written := Disk.flush_data (h.disk.append ino h.diff) ino ino
  exact (Disk.flush_synced (h.disk.append ino h.diff) ino).trans (congrArg List.length written).symm

theorem aofRewriteCron_preserves (io : CronIo) (h : Host) : Preserves h (aofRewriteCron io h) := by
  rcases aofRewriteCron_ran io h with same | ⟨-, ran⟩
  · exact same.symm ▸ .of_same rfl rfl
  · generalize aofRewriteCron io h = h' at ran ⊢
    cases ran with
    | unchanged => exact .of_same rfl rfl
    | started idle =>
      obtain ⟨disk, aofFd⟩ := aofRewriteStart_same io.start { h with lastCheckMs := h.nowMs }
      exact .of_same disk aofFd
    | lost busy => exact .of_same rfl rfl
    | discarded busy g prepared =>
      refine (discard_preserves _ g).after ?_ ?_
      · cases prepared with
        | untouched => exact .refl _
        | written ino temp out => exact .append _ _ _
        | flushed ino temp => exact flushDiff_keeps ino _
      · cases prepared <;> rfl
    | installed active c child phase ino temp =>
      exact ⟨(flushDiff_keeps ino _).trans (.renameTemp _), Or.inr (install_flushed _ ino _)⟩

theorem beforeSleep_preserves (nowMs nowRealtimeMs : Int) (io : TickIo) (h : Host) :
    Preserves h (beforeSleep nowMs nowRealtimeMs io h) := by
  let begun : Host :=
    { h with nowMs := nowMs, nowRealtimeMs := nowRealtimeMs, cronloops := h.cronloops + 1 }
  have swept : (activeExpireCron io begun).disk = h.disk ∧
      (activeExpireCron io begun).aofFd = h.aofFd :=
    activeExpireCron_induct (I := fun g => g.disk = h.disk ∧ g.aofFd = h.aofFd)
      (fun _ _ _ same => same) begun rfl ⟨rfl, rfl⟩
  have quiet := aofCron_quiet io.flushed (activeExpireCron io begun)
  have keeps := aofCron_keeps io.flushed (activeExpireCron io begun)
  rw [swept.1] at keeps
  exact (aofRewriteCron_preserves io.cron _).after keeps (quiet.aofFd.trans swept.2)

theorem childStep_keeps (realtimeMs : Int) (io : ChildIo) (c : Child) (disk : Disk) :
    Keeps disk (childStep realtimeMs io c disk).2 := by
  unfold childStep
  split
  · simp only [childOpen]
    split
    · exact .refl _
    · have made := Keeps.createTemp disk
      rcases hw : disk.createTemp.1.writeAll disk.createTemp.2 io.writes (aofFileHeader realtimeMs)
        with ⟨disk', _ | _⟩
      all_goals
        have written := Keeps.writeAll disk.createTemp.1 disk.createTemp.2 io.writes
          (aofFileHeader realtimeMs)
        rw [hw] at written
        exact made.trans written
  · rename_i ino iter _
    simp only [childRound]
    split
    · split
      · exact .flush _ _
      · exact .refl _
    · split
      · exact .refl _
      · split
        · exact .refl _
        · rename_i buf _
          have written := Keeps.writeAll disk ino io.writes buf
          rcases hw : disk.writeAll ino io.writes buf with ⟨disk', _ | _⟩
          all_goals
            rw [hw] at written
            exact written
  · exact .refl _

theorem step_preserves (h : Host) (e : Event) : Preserves h (step h e) := by
  cases e with
  | request payload io =>
    simp only [step]
    split
    · exact .of_same rfl rfl
    · exact commandExecute_preserves io h payload msgMax
  | tick nowMs nowRealtimeMs io =>
    simp only [step]
    split
    · exact .of_same rfl rfl
    · split
      · exact .of_same rfl rfl
      · exact beforeSleep_preserves nowMs nowRealtimeMs io h
  | child realtimeMs io =>
    simp only [step]
    split
    · exact .of_same rfl rfl
    · exact .of_disk (childStep_keeps realtimeMs io _ h.disk) rfl
  | childKilled =>
    simp only [step]
    split <;> exact .of_same rfl rfl
  | childSignal =>
    simp only [step, signalChild]
    split
    · exact .of_same rfl rfl
    · split <;> exact .of_same rfl rfl
  | signal => exact .of_same rfl rfl
  | shutdown =>
    simp only [step]
    split <;> exact .of_same rfl rfl

theorem keeps_run (h : Host) (events : List Event) : Keeps h.disk (run h events).disk :=
  Transition.run_invariant_always (I := fun g => Keeps h.disk g.disk)
    (fun g e kept => kept.trans (step_preserves g e).keeps) (.refl _) events

/-! What a step does to the log. -/

structure Replaced (h h' : Host) (c : Child) (createdMs : Int) (snapshot : List Record) : Prop where
  active : h.aofRewriteState = .active
  child : h.child = some c
  snap : SnapshotOf c.clocks c.db c.db.keyspace.entries snapshot
  live : h'.live = logFile createdMs (snapshot ++ h.appended.drop c.mark)
  flushed : Flushed h'

inductive LogStep (h : Host) : Event → Host → Prop
  | same {e : Event} {h' : Host} (makes : mutation h e = none) (aofFd : h'.aofFd = h.aofFd)
      (live : h'.live = h.live) (appended : h'.appended = h.appended) : LogStep h e h'
  | mutated {payload : Bytes} {io : RequestIo} (r : Record)
      (makes : mutation h (.request payload io) = some r) :
      LogStep h (.request payload io)
        (aofAppend io.append { h with db := (replayDispatch h.db r.decoded).1 } r).1
  | replaced {e : Event} {h' : Host} (makes : mutation h e = none)
      (appended : h'.appended = h.appended) (c : Child) (createdMs : Int) (snapshot : List Record)
      (new : Replaced h h' c createdMs snapshot) : LogStep h e h'

theorem logStep {h : Host} (inv : RewriteInv h) (e : Event) : LogStep h e (step h e) := by
  have preserved := (step_preserves h e).log
  have out := stepped h e
  generalize step h e = h' at out preserved ⊢
  cases out with
  | quiet makes q => exact .same makes q.aofFd q.live q.appended
  | mutated r asks makes stored => exact .mutated r makes
  | refused r asks makes failed => exact .same makes rfl rfl rfl
  | cleaned key makes => exact .same makes rfl rfl rfl
  | started makes idle => exact .same makes rfl rfl rfl
  | @childStepped realtimeMs io c hc =>
    exact .same rfl rfl (childStep_spec inv.disk realtimeMs io (inv.progress c hc)).2.1 rfl
  | childChanged makes c c' hc same q => exact .same makes q.aofFd q.live q.appended
  | @ticked nowMs nowRealtimeMs io =>
    let Before (g : Host) : Prop := RewriteInv g ∧ g.aofFd = h.aofFd ∧ g.live = h.live ∧
      g.appended = h.appended ∧ g.aofRewriteState = h.aofRewriteState ∧ g.child = h.child
    obtain ⟨g, ⟨inv', aofFd, live, appended, state, child⟩, outcome⟩ := beforeSleep_cases
      (I := Before) nowMs io h ⟨inv.retimed, rfl, rfl, rfl, rfl, rfl⟩
      (fun g key _ _ hg => ⟨hg.1.withDb _, hg.2⟩)
      (fun g g' q hg => ⟨hg.1.quiet q, q.aofFd.trans hg.2.1, q.live.trans hg.2.2.1,
        q.appended.trans hg.2.2.2.1, q.state.trans hg.2.2.2.2.1, q.child.trans hg.2.2.2.2.2⟩)
    cases outcome with
    | quiet q => exact .same rfl (q.aofFd.trans aofFd) (q.live.trans live) (q.appended.trans appended)
    | started idle eq =>
      rw [eq]
      exact .same rfl aofFd live appended
    | ended busy stopped =>
      have kept := stopped.live inv'.disk
      exact .same rfl (stopped.aofFd.trans aofFd) (kept.trans live) (stopped.appended.trans appended)
    | installed c ino done =>
      obtain ⟨createdMs, snapshot, snap, bytes⟩ := inv'.installed_live done
      have other : (beforeSleep nowMs nowRealtimeMs io h).aofFd ≠ h.aofFd := by
        rw [done.aofFd, ← aofFd]
        exact (inv'.disk.temp ino done.temp).2
      exact .replaced rfl (done.appended.trans appended) c createdMs snapshot
        ⟨state ▸ done.active, child ▸ done.child, snap, appended ▸ bytes,
          preserved.resolve_left other⟩

/-! What a power loss leaves. -/

/-- The mutations of a run, which are the requests that `mutation_answered` is about. -/
def acknowledged (h : Host) : List Event → List Record
  | [] => []
  | e :: events => (mutation h e).toList ++ acknowledged (step h e) events

theorem acknowledged_append (h : Host) (before after : List Event) :
    acknowledged h (before ++ after) =
      acknowledged h before ++ acknowledged (run h before) after := by
  induction before generalizing h with
  | nil => rfl
  | cons e before ih =>
    rw [List.cons_append, acknowledged, acknowledged, ih, List.append_assoc]
    rfl

/-- What the directory on the device may hold for the log when the power fails in the
middle of an event, and the mutations acknowledged since the directory held it. `stale`
is what it held before the start. The calls of the last event may fail, as all those
behind the loss do. -/
inductive Listed (stale : List (Option Nat)) (h : Host) (events : List Event) (last : Event) :
    Option Nat → List Record → Prop
  | older (entry : Option Nat) (old : entry ∈ stale) :
      Listed stale h events last entry (acknowledged h events)
  | during (before after : List Event) (split : events = before ++ after) :
      Listed stale h events last (run h before).disk.aof (acknowledged (run h before) after)
  | newest : Listed stale h events last (step (run h events) last).disk.aof []

/-- What may be found in a file: all that was flushed, and anything behind it. -/
def Survives (d : Disk) : Option Nat → Option Bytes → Prop
  | none, found => found = none
  | some ino, found => ∃ bytes, found = some bytes ∧ (d.data ino).take (d.synced ino) <+: bytes

/-- A log with the effects of all mutations of a run: their records behind the log as it
was before, or a snapshot of the store at a fork and the records since. -/
inductive Complete (h : Host) (events : List Event) : Bytes → Prop
  | records : Complete h events (h.live ++ logBytes (acknowledged h events))
  | snapshot (before during after : List Event) (split : events = before ++ during ++ after)
      (forked : Forked (run h before)) (c : Child)
      (child : (run h (before ++ during)).child = some c) (createdMs : Int)
      (snapshot : List Record)
      (snap : SnapshotOf c.clocks (run h before).db (run h before).db.keyspace.entries snapshot) :
      Complete h events
        (logFile createdMs (snapshot ++ acknowledged (run h before) (during ++ after)))

/-- The file found after a loss covers all that was acknowledged, if anything was. -/
def Covers (h : Host) (events : List Event) (found : Option Bytes) : Prop :=
  acknowledged h events ≠ [] →
    ∃ log bytes, Complete h events log ∧ found = some bytes ∧ log <+: bytes

/-- The policy and the fsync mode under which a power loss is to be survived. -/
structure Strict (config : ServerConfig) : Prop where
  enabled : config.aofEnabled = true
  always : config.aofPolicy = .always
  full : config.aofFsyncMode = .full

def Succeeds (h : Host) : Event → Prop
  | .request payload io => .error ∉ io.append.writes ∧ io.append.flushed = true ∧
      ∀ r ∈ mutation h (.request payload io), r.key.length + r.value.length ≤ aofPayloadMax
  | _ => True

instance (h : Host) : (e : Event) → Decidable (Succeeds h e)
  | .request _ _ => inferInstanceAs (Decidable (_ ∧ _))
  | .tick _ _ _ | .child _ _ | .childKilled | .childSignal | .signal | .shutdown =>
      inferInstanceAs (Decidable True)

/-! What the log is made of while appends succeed. -/

theorem acknowledged_single (h : Host) (e : Event) : acknowledged h [e] = (mutation h e).toList :=
  List.append_nil _

theorem Complete.append {h : Host} {events : List Event} {log : Bytes}
    (complete : Complete h events log) (more : List Event) :
    Complete h (events ++ more) (log ++ logBytes (acknowledged (run h events) more)) := by
  cases complete with
  | records =>
    rw [List.append_assoc, ← logBytes_append, ← acknowledged_append]
    exact .records
  | snapshot before during after split forked c child createdMs snapshot snap =>
    have reached : run h events = run (run h before) (during ++ after) := by
      rw [split, List.append_assoc, run_append]
    have longer := @Complete.snapshot h (events ++ more) before during
      (after ++ more) (by simp [split]) forked c child createdMs snapshot snap
    rw [← List.append_assoc, acknowledged_append, ← reached, ← List.append_assoc, logFile,
      logBytes_append, ← List.append_assoc] at longer
    exact longer

section Step
variable {h : Host} {e : Event}

theorem step_succeeds (inv : RewriteInv h) (on : h.config.aofEnabled = true) (ok : Succeeds h e) :
    (step h e).appended = h.appended ++ (mutation h e).toList ∧
      ((step h e).live = h.live ++ logBytes (mutation h e).toList ∨
        mutation h e = none ∧ ∃ c createdMs snapshot, Replaced h (step h e) c createdMs snapshot) := by
  have out := logStep inv e
  generalize step h e = h' at out ⊢
  cases out with
  | same makes aofFd live appended => simp [makes, live, appended]
  | @mutated payload io r makes =>
    obtain ⟨written, -, fits⟩ := ok
    obtain ⟨live, appended, -⟩ := mutated_appended on written (fits r makes)
      (aofAppend_frame io.append { h with db := (replayDispatch h.db r.decoded).1 } r).2
    rw [makes, Option.toList_some, logBytes_singleton]
    exact ⟨appended, Or.inl live⟩
  | replaced makes appended c createdMs snapshot new =>
    rw [makes]
    exact ⟨by simp [appended], Or.inr ⟨rfl, c, createdMs, snapshot, new⟩⟩

theorem log_keeps {d : Disk} (inv : RewriteInv h) (keeps : Keeps h.disk d) :
    h.live <+: d.data h.aofFd ∧ h.disk.synced h.aofFd ≤ d.synced h.aofFd :=
  (keeps.file h.aofFd inv.disk.bound fun named => (inv.disk.temp _ named).2 rfl).2

theorem not_forked_of_mutation (inv : RewriteInv h) (on : h.config.aofEnabled = true)
    (ok : Succeeds h e) {r : Record} (makes : mutation h e = some r) : ¬ Forked (step h e) := by
  have grown := (step_succeeds inv on ok).1
  rintro ⟨-, pid, forked⟩
  cases e with
  | request payload io =>
    rw [makes, step_mutated makes] at grown
    rw [step_mutated makes] at forked
    obtain ⟨c, hc, same⟩ := (aofAppend_frame io.append
      { h with db := (replayDispatch h.db r.decoded).1 } r).2.child forked
    have early := inv.mark c hc
    have mark : List.length _ = c.mark := same.mark
    rw [grown, List.length_append, Option.toList_some, List.length_singleton] at mark
    omega
  | _ => simp [mutation] at makes

theorem step_flushed (inv : RewriteInv h) (on : h.config.aofEnabled = true)
    (always : h.config.aofPolicy = .always) (ok : Succeeds h e)
    (due : mutation h e = none → Flushed h) : Flushed (step h e) := by
  have keeps := (step_preserves h e).keeps
  have out := logStep inv e
  generalize step h e = h' at out keeps ⊢
  cases out with
  | same makes aofFd live appended =>
    refine le_antisymm (h'.disk.synced_le _) ?_
    rw [live, ← due makes, aofFd]
    exact (log_keeps inv keeps).2
  | @mutated payload io r makes =>
    obtain ⟨written, flushed, fits⟩ := ok
    have full : Completes io.append.writes r.bytes.length := fun k fault => by
      simp [faultAfter_eq_none written] at fault
    let stored : Host := { h with db := (replayDispatch h.db r.decoded).1 }
    have enabled : stored.config.aofEnabled = true := on
    exact ((aofAppend_durable_iff enabled always (fits r makes)).mpr ⟨full, flushed⟩).flushed
  | replaced makes appended c createdMs snapshot new => exact new.flushed

end Step

/-! Runs. -/

section Run
variable {h : Host} {events : List Event}

theorem appended_run (inv : RewriteInv h) (on : h.config.aofEnabled = true)
    (ok : Transition.Along step Succeeds h events) :
    (run h events).appended = h.appended ++ acknowledged h events := by
  induction events generalizing h with
  | nil => exact (List.append_nil _).symm
  | cons e events ih =>
    have config := (step_completed h e).1
    have rest := ih (rewriteInv_step inv e) (config ▸ on) ok.2
    have first := (step_succeeds inv on ok.1).1
    rw [acknowledged, ← List.append_assoc, ← first]
    exact rest

theorem complete_replaced (inv : RewriteInv h) (idle : h.aofRewriteState = .idle)
    (on : h.config.aofEnabled = true) (ok : Transition.Along step Succeeds h events) {h' : Host}
    {c : Child} {createdMs : Int} {snapshot : List Record}
    (new : Replaced (run h events) h' c createdMs snapshot) : Complete h events h'.live := by
  obtain ⟨before, during, split, forked, db, mark, -⟩ :=
    exists_fork idle events new.active new.child
  have history := appended_run inv on ok
  have history' := appended_run inv on (Transition.along_append.mp (split ▸ ok)).1
  have since : (run h events).appended.drop c.mark = acknowledged (run h before) during := by
    rw [mark, history', history, split, acknowledged_append, ← List.append_assoc, List.drop_left]
  have snap := new.snap
  rw [db] at snap
  rw [new.live, since]
  have complete := @Complete.snapshot h events before during [] (by simp [split])
    forked c (split ▸ new.child) createdMs snapshot snap
  rwa [List.append_nil] at complete

theorem complete_run (inv : RewriteInv h) (idle : h.aofRewriteState = .idle)
    (on : h.config.aofEnabled = true) (ok : Transition.Along step Succeeds h events) :
    Complete h events (run h events).live := by
  induction events using List.reverseRecOn with
  | nil =>
    have start : h.live ++ logBytes (acknowledged h []) = h.live := List.append_nil _
    exact start ▸ .records
  | append_singleton events e ih =>
    obtain ⟨before, last, -⟩ := Transition.along_append.mp ok
    have on' : (run h events).config.aofEnabled = true := by rw [config_run, on]
    rw [run_concat]
    rcases (step_succeeds (rewriteInv_run inv events) on' last).2
      with grown | ⟨none, c, createdMs, snapshot, new⟩
    · rw [grown, ← acknowledged_single]
      exact (ih before).append [e]
    · have complete := (complete_replaced inv idle on before new).append [e]
      rwa [acknowledged_single, none, Option.toList_none, logBytes_nil, List.append_nil] at complete

theorem flushed_run (inv : RewriteInv h) (on : h.config.aofEnabled = true)
    (always : h.config.aofPolicy = .always) (ok : Transition.Along step Succeeds h events)
    (due : acknowledged h events ≠ []) : Flushed (run h events) := by
  induction events using List.reverseRecOn with
  | nil => exact absurd rfl due
  | append_singleton events e ih =>
    obtain ⟨before, last, -⟩ := Transition.along_append.mp ok
    have same := config_run h events
    rw [run_concat]
    refine step_flushed (rewriteInv_run inv events) (same ▸ on) (same ▸ always) last fun none => ?_
    refine ih before fun nothing => due ?_
    rw [acknowledged_append, nothing, acknowledged_single, none]
    rfl

theorem found_last (events : List Event) {e : Event} (r : Record) {found : Option Bytes}
    (inv : RewriteInv h) (on : h.config.aofEnabled = true)
    (ok : Transition.Along step Succeeds h (events ++ [e]))
    (makes : mutation (run h events) e = some r) (covers : Covers h (events ++ [e]) found) :
    ∃ bytes, found = some bytes ∧ r.bytes <:+: bytes := by
  have single : acknowledged (run h events) [e] = [r] := by rw [acknowledged_single, makes]; rfl
  have due : acknowledged h (events ++ [e]) ≠ [] := by simp [acknowledged_append, single]
  have at_end (log : Bytes) : r.bytes <:+: log ++ r.bytes := ⟨log, [], List.append_nil _⟩
  obtain ⟨log, bytes, complete, rfl, front⟩ := covers due
  refine ⟨bytes, rfl, List.IsInfix.trans ?_ front.isInfix⟩
  cases complete with
  | records =>
    rw [acknowledged_append, single, logBytes_append, logBytes_singleton, ← List.append_assoc]
    exact at_end _
  | snapshot before during after split forked c child createdMs snapshot snap =>
    rw [List.append_assoc] at split
    rcases List.eq_nil_or_concat (during ++ after) with nothing | ⟨rest, f, shape⟩
    · -- The fork would be right behind the mutation.
      rw [nothing, List.append_nil] at split
      obtain ⟨early, last, -⟩ := Transition.along_append.mp ok
      have on' : (run h events).config.aofEnabled = true := by rw [config_run, on]
      rw [← split, run_concat] at forked
      exact absurd forked (not_forked_of_mutation (rewriteInv_run inv events) on' last makes)
    · rw [shape, List.concat_eq_append, ← List.append_assoc] at split
      obtain ⟨rfl, same⟩ := List.append_inj' split rfl
      obtain rfl := List.singleton_inj.mp same
      rw [shape, List.concat_eq_append, acknowledged_append, ← run_append, single, logFile,
        ← List.append_assoc, logBytes_append, logBytes_singleton, ← List.append_assoc]
      exact at_end _

end Run

theorem found_complete {h : Host} {events : List Event} {d d' : Disk} {ino : Nat}
    (complete : Complete h events (d.data ino)) (flushed : d.synced ino = (d.data ino).length)
    (kept : d.data ino <+: d'.data ino ∧ d.synced ino ≤ d'.synced ino) {found : Option Bytes}
    (survives : Survives d' (some ino) found) :
    ∃ log bytes, Complete h events log ∧ found = some bytes ∧ log <+: bytes := by
  obtain ⟨bytes, rfl, left⟩ := survives
  refine ⟨_, bytes, complete, rfl, List.IsPrefix.trans ?_ left⟩
  rw [List.prefix_take_iff]
  exact ⟨kept.1, flushed ▸ kept.2⟩

theorem found_since {h : Host} (inv : RewriteInv h) (idle : h.aofRewriteState = .idle)
    (on : h.config.aofEnabled = true) (always : h.config.aofPolicy = .always)
    {before after : List Event} (ok : Transition.Along step Succeeds h before)
    (due : acknowledged h (before ++ after) ≠ [])
    (since : acknowledged (run h before) after = []) {d : Disk}
    (keeps : Keeps (run h before).disk d) {found : Option Bytes}
    (survives : Survives d (some (run h before).aofFd) found) :
    ∃ log bytes, Complete h (before ++ after) log ∧ found = some bytes ∧ log <+: bytes := by
  have complete := (complete_run inv idle on ok).append after
  rw [since, logBytes_nil, List.append_nil] at complete
  rw [acknowledged_append, since, List.append_nil] at due
  exact found_complete complete (flushed_run inv on always ok due)
    (log_keeps (rewriteInv_run inv before) keeps) survives

/-- Whatever a power loss makes of the directory, if it has held the surviving entry
since the last answer then the file found covers every acknowledged mutation. -/
theorem loss_covered {config : ServerConfig} {disk : Disk} {bootIo : BootIo}
    {nowMs nowRealtimeMs realtimeMs : Int} {h : Host} (wf : disk.WellFormed) (strict : Strict config)
    (boot : initServer config disk nowMs nowRealtimeMs realtimeMs bootIo = some h)
    (events : List Event) (ok : Transition.Along step Succeeds h events) (last : Event)
    (stale : List (Option Nat)) (entry : Option Nat) (since : List Record)
    (listed : Listed stale h events last entry since) (current : since = [])
    (found : Option Bytes) (survives : Survives (step (run h events) last).disk entry found) :
    Covers h events found := by
  obtain ⟨booted, sound⟩ := initServer_spec boot
  have inv := sound wf strict.enabled
  have on : h.config.aofEnabled = true := booted.config ▸ strict.enabled
  have always : h.config.aofPolicy = .always := booted.config ▸ strict.always
  intro due
  cases listed with
  | older old => exact absurd current due
  | during before after split =>
    subst split
    have keeps := (keeps_run (run h before) after).trans (step_preserves _ last).keeps
    rw [← run_append] at keeps
    rw [(rewriteInv_run inv before).disk.aof] at survives
    exact found_since inv booted.state on always (Transition.along_append.mp ok).1 due current
      keeps survives
  | newest =>
    have inv' := rewriteInv_run inv events
    have entry := (rewriteInv_step inv' last).disk.aof
    have keeps := (step_preserves (run h events) last).keeps
    have out := logStep inv' last
    generalize step (run h events) last = h' at out keeps survives entry
    rw [entry] at survives
    have sameFile (aofFd : h'.aofFd = (run h events).aofFd) :
        ∃ log bytes, Complete h events log ∧ found = some bytes ∧ log <+: bytes := by
      have since := @found_since h inv booted.state on always events [] ok
      rw [List.append_nil] at since
      exact since due rfl keeps (aofFd ▸ survives)
    cases out with
    | same makes aofFd live appended => exact sameFile aofFd
    | @mutated payload io r makes =>
      exact sameFile (aofAppend_frame io.append
        { run h events with db := (replayDispatch (run h events).db r.decoded).1 } r).1.aofFd
    | replaced makes appended c createdMs snapshot new =>
      exact found_complete (complete_replaced inv booted.state on ok new) new.flushed
        ⟨List.prefix_refl _, le_refl _⟩ survives

def rewritten : List Event :=
  [.request (ascii "SET a 1") {}, .request (ascii "BGREWRITEAOF") {}, .child 0 {}, .child 0 {},
    .child 0 {}, .tick 1000 1000 {}, .request (ascii "SET b 2") {}]

theorem loss_covered_rewritten :
    Covers (firstHost {}) rewritten (run (firstHost {}) rewritten).file := by
  refine loss_covered Disk.blank_wellFormed ⟨rfl, rfl, rfl⟩ (firstHost_boot {}) rewritten
    (by decide +kernel) .signal [none] (some 1) [] ?_ rfl _ ?_
  · have entry : (run (firstHost {}) rewritten).disk.aof = some 1 := by decide +kernel
    exact entry ▸ .during rewritten [] (List.append_nil _).symm
  · exact ⟨(run (firstHost {}) rewritten).live, by decide +kernel, List.take_prefix _ _⟩

/-- "+OK", and no file at all when the creation of the log is lost; and the log from
before a rewrite, without the later SET, when the rename is. -/
theorem loss_uncovered :
    (Transition.Along step Succeeds (firstHost {}) [.request (ascii "SET k v") {}] ∧
      Listed [none] (firstHost {}) [.request (ascii "SET k v") {}] .signal none
        [setRecord.toRecord] ∧
      Survives (step (run (firstHost {}) [.request (ascii "SET k v") {}]) .signal).disk none none ∧
      ¬ Covers (firstHost {}) [.request (ascii "SET k v") {}] none) ∧
    Transition.Along step Succeeds (firstHost {}) rewritten ∧
      Listed [none] (firstHost {}) rewritten .signal (some 0) [⟨.set, ascii "b", ascii "2", 0⟩] ∧
      Survives (step (run (firstHost {}) rewritten) .signal).disk (some 0)
        (some (logFile 0 [⟨.set, ascii "a", ascii "1", 0⟩])) ∧
      ¬ Covers (firstHost {}) rewritten (some (logFile 0 [⟨.set, ascii "a", ascii "1", 0⟩])) := by
  have inv : RewriteInv (firstHost {}) :=
    (initServer_spec (firstHost_boot {})).2 Disk.blank_wellFormed rfl
  refine ⟨⟨by decide +kernel, ?_, rfl, fun covers => ?_⟩, by decide +kernel, ?_, ?_, fun covers => ?_⟩
  · have answered : acknowledged (firstHost {}) [.request (ascii "SET k v") {}] =
        [setRecord.toRecord] := by decide +kernel
    exact answered ▸ .older none (List.mem_singleton.mpr rfl)
  · obtain ⟨bytes, found, -⟩ := found_last [] setRecord.toRecord inv rfl (by decide +kernel)
      (by decide +kernel) covers
    simp at found
  · have entry : (run (firstHost {}) (rewritten.take 5)).disk.aof = some 0 := by decide +kernel
    have since : acknowledged (run (firstHost {}) (rewritten.take 5)) (rewritten.drop 5) =
        [⟨.set, ascii "b", ascii "2", 0⟩] := by decide +kernel
    rw [← entry, ← since]
    exact .during _ _ (List.take_append_drop 5 rewritten).symm
  · exact ⟨_, rfl, by decide +kernel⟩
  · obtain ⟨bytes, found, inside⟩ := found_last (rewritten.take 6) ⟨.set, ascii "b", ascii "2", 0⟩
      inv rfl (by decide +kernel) (by decide +kernel) covers
    obtain rfl := Option.some.inj found
    exact absurd inside (by decide +kernel)

end ByteKV.PowerLoss
