import ByteKV.StepCases

/-! What holds of a rewrite whatever the system calls do: how far the child has come
with its temp file, and that the diff buffer holds the records appended since the
fork. Only the order in which things happen matters here, not what replay makes of
the records. -/
namespace ByteKV.RewriteInvariant
open Config Database HashTable FileIo AofRecord ServerState AofAppend AofRewrite ServerRun
open StepCases Command

/-- The records a child with these clock readings writes for these entries of
`db`: one for each, except for entries that one of the readings has overtaken. An
entry whose record does not fit has no place in a snapshot. -/
inductive SnapshotOf (clocks : List Int) (db : Db) : List (HtEntry Bytes) → List Record → Prop
  | nil : SnapshotOf clocks db [] []
  | skip {e es rs} (now : Int) (read : now ∈ clocks) (dead : childSkips db e now = true)
      (rest : SnapshotOf clocks db es rs) : SnapshotOf clocks db (e :: es) rs
  | take {e es rs} (fits : (aofSerialize aofRecordMax (childRecord db e)).isSome)
      (rest : SnapshotOf clocks db es rs) : SnapshotOf clocks db (e :: es) (childRecord db e :: rs)

namespace SnapshotOf
variable {clocks : List Int} {db : Db} {es : List (HtEntry Bytes)} {rs : List Record}

theorem later (h : SnapshotOf clocks db es rs) (now : Int) :
    SnapshotOf (clocks ++ [now]) db es rs := by
  induction h with
  | nil => exact .nil
  | skip now read dead _ ih => exact .skip now (List.mem_append_left _ read) dead ih
  | take fits _ ih => exact .take fits ih

theorem skip_last {e : HtEntry Bytes} {now : Int} (h : SnapshotOf clocks db es rs)
    (read : now ∈ clocks) (dead : childSkips db e now = true) :
    SnapshotOf clocks db (es ++ [e]) rs := by
  induction h with
  | nil => exact .skip now read dead .nil
  | skip now' read' dead' _ ih => exact .skip now' read' dead' ih
  | take fits _ ih => exact .take fits ih

theorem take_last {e : HtEntry Bytes} (h : SnapshotOf clocks db es rs)
    (fits : (aofSerialize aofRecordMax (childRecord db e)).isSome) :
    SnapshotOf clocks db (es ++ [e]) (rs ++ [childRecord db e]) := by
  induction h with
  | nil => exact .take fits .nil
  | skip now' read' dead' _ ih => exact .skip now' read' dead' ih
  | take fits' _ ih => exact .take fits' ih

end SnapshotOf

def Progress (disk : Disk) (c : Child) : Prop :=
  match c.phase with
  | .writing ino iter =>
      disk.temp = some ino ∧ -1 ≤ iter.index ∧ ∃ createdMs seen rs,
        seen ++ htIterRest c.db.keyspace.raw iter = c.db.keyspace.entries ∧
        SnapshotOf c.clocks c.db seen rs ∧ disk.data ino = logFile createdMs rs
  | .exited 0 =>
      ∃ ino createdMs rs, disk.temp = some ino ∧
        SnapshotOf c.clocks c.db c.db.keyspace.entries rs ∧ disk.data ino = logFile createdMs rs
  | _ => True

theorem Progress.mono {disk disk' : Disk} {c : Child} (h : Progress disk c)
    (temp : disk'.temp = disk.temp)
    (data : ∀ ino, disk.temp = some ino → disk'.data ino = disk.data ino) : Progress disk' c := by
  unfold Progress at h ⊢
  split
  · rename_i ino iter phase
    rw [phase] at h
    obtain ⟨ht, index, createdMs, seen, rs, whole, snap, bytes⟩ := h
    exact ⟨temp.trans ht, index, createdMs, seen, rs, whole, snap, (data ino ht).trans bytes⟩
  · rename_i phase
    rw [phase] at h
    obtain ⟨ino, createdMs, rs, ht, snap, bytes⟩ := h
    exact ⟨ino, createdMs, rs, temp.trans ht, snap, (data ino ht).trans bytes⟩
  · trivial

theorem Progress.sameChild {disk : Disk} {c c' : Child} (h : Progress disk c)
    (same : SameChild c c') : Progress disk c' := by
  rcases same.phase with phase | phase
  · unfold Progress at h ⊢
    rw [phase, same.db, same.clocks]
    exact h
  · simp [Progress, phase]

theorem Progress.of_failed {disk : Disk} {c : Child} {status : Nat}
    (h : c.phase = .exited (status + 1)) : Progress disk c := by
  simp [Progress, h]

section ChildStep
variable {disk : Disk} {fd : Nat} (ok : disk.Ok fd) (now : Int) (io : ChildIo)
include ok

theorem childOpen_spec (c : Child) :
    (childOpen now io disk).2.Ok fd ∧ (childOpen now io disk).2.data fd = disk.data fd ∧
      Progress (childOpen now io disk).2
        { c with phase := (childOpen now io disk).1, clocks := c.clocks ++ [now] } := by
  obtain ⟨made, temp, blank, kept⟩ := Disk.createTemp_spec ok
  unfold childOpen
  split
  · exact ⟨ok, rfl, .of_failed rfl⟩
  · have other : fd ≠ disk.createTemp.2 := (made.temp _ temp).2.symm
    simp only
    rcases hw : disk.createTemp.1.writeAll disk.createTemp.2 io.writes (aofFileHeader now)
      with ⟨disk', _ | _⟩
    · obtain ⟨out, rfl⟩ := Disk.writeAll_false hw
      exact ⟨(Disk.append_sameBut _ _ _).ok made,
        (Disk.append_data_of_ne _ _ other).trans kept, .of_failed rfl⟩
    · obtain rfl := Disk.writeAll_true hw
      refine ⟨(Disk.append_sameBut _ _ _).ok made,
        (Disk.append_data_of_ne _ _ other).trans kept, temp, le_refl _, now, [], [], ?_, .nil, ?_⟩
      · rw [List.nil_append]
        exact htIterRest_create c.db.keyspace.raw
      · rw [Disk.append_data, blank, logFile, logBytes_nil, List.nil_append, List.append_nil]

theorem childRound_spec {c : Child} {ino : Nat} {iter : HtIter Bytes}
    (phase : c.phase = .writing ino iter) (h : Progress disk c) :
    (childRound now io c.db ino iter disk).2.Ok fd ∧
      (childRound now io c.db ino iter disk).2.data fd = disk.data fd ∧
      Progress (childRound now io c.db ino iter disk).2
        { c with
          phase := (childRound now io c.db ino iter disk).1
          clocks := c.clocks ++ [now] } := by
  simp only [Progress, phase] at h
  obtain ⟨temp, low, createdMs, seen, rs, whole, snap, bytes⟩ := h
  have other : fd ≠ ino := (ok.temp _ temp).2.symm
  obtain ⟨low', head, tail⟩ := htIterNext_spec c.db.keyspace iter low
  unfold childRound
  rcases hn : htIterNext c.db.keyspace.raw iter with ⟨_ | e, iter'⟩
  · -- Every entry has been seen.
    rw [hn] at head
    have none_left : htIterRest c.db.keyspace.raw iter = [] := List.head?_eq_none_iff.mp head.symm
    rw [none_left, List.append_nil] at whole
    simp only
    cases io.flushed with
    | false => exact ⟨ok, rfl, .of_failed rfl⟩
    | true =>
      exact ⟨(Disk.flush_sameBut _ _).ok ok, Disk.flush_data _ _ _, ino, createdMs, rs, temp,
        whole ▸ snap.later now, (Disk.flush_data _ _ _).trans bytes⟩
  · rw [hn] at low' head tail
    have split : htIterRest c.db.keyspace.raw iter = e :: htIterRest c.db.keyspace.raw iter' := by
      rw [tail]
      exact (List.cons_head?_tail head.symm).symm
    rw [split, List.append_cons] at whole
    simp only
    split
    · rename_i dead
      exact ⟨ok, rfl, temp, low', createdMs, seen ++ [e], rs, whole,
        (snap.later now).skip_last (by simp) dead, bytes⟩
    · rcases hs : aofSerialize aofRecordMax (childRecord c.db e) with _ | buf
      · exact ⟨ok, rfl, .of_failed rfl⟩
      · simp only
        rcases hw : disk.writeAll ino io.writes buf with ⟨disk', _ | _⟩
        · obtain ⟨out, rfl⟩ := Disk.writeAll_false hw
          exact ⟨(Disk.append_sameBut _ _ _).ok ok, Disk.append_data_of_ne _ _ other, .of_failed rfl⟩
        · obtain rfl := Disk.writeAll_true hw
          refine ⟨(Disk.append_sameBut _ _ _).ok ok, Disk.append_data_of_ne _ _ other, temp, low',
            createdMs, seen ++ [e], rs ++ [childRecord c.db e], whole,
            (snap.later now).take_last (by simp [hs]), ?_⟩
          rw [Disk.append_data, bytes, aofSerialize_bytes hs, logFile, logFile, logBytes_append,
            logBytes_singleton, List.append_assoc]

end ChildStep

/-- The invariant of a rewrite, for any outcomes of the calls. -/
structure RewriteInv (h : Host) : Prop where
  disk : h.disk.Ok h.aofFd
  idle : h.aofRewriteState = .idle ↔ h.child = none
  buf : BufOk h
  mark : ∀ c, h.child = some c → c.mark ≤ h.appended.length
  diff : h.aofRewriteState = .active → ∀ c, h.child = some c →
    h.diff = logBytes (h.appended.drop c.mark)
  progress : ∀ c, h.child = some c → Progress h.disk c

namespace RewriteInv
variable {h h' : Host}

theorem file (inv : RewriteInv h) : h.file = some h.live := by
  rw [Host.file, inv.disk.aof]
  rfl

theorem withDb (inv : RewriteInv h) (db : Db) : RewriteInv { h with db := db } :=
  ⟨inv.disk, inv.idle, inv.buf, inv.mark, inv.diff, inv.progress⟩

theorem retimed (inv : RewriteInv h) {nowMs nowRealtimeMs : Int} {cronloops : Nat} :
    RewriteInv { h with
      nowMs := nowMs, nowRealtimeMs := nowRealtimeMs, cronloops := cronloops } :=
  ⟨inv.disk, inv.idle, inv.buf, inv.mark, inv.diff, inv.progress⟩

theorem quiet (inv : RewriteInv h) (q : Quiet h h') : RewriteInv h' where
  disk := by
    rw [q.aofFd]
    exact ⟨q.aof.trans inv.disk.aof, q.next ▸ inv.disk.bound, fun ino ht =>
      q.next ▸ inv.disk.temp ino (q.temp ▸ ht)⟩
  idle := by rw [q.state, q.child, inv.idle]
  buf := fun active => by
    rw [q.buf, q.len]
    exact inv.buf (q.state ▸ active)
  mark := fun c hc => by
    rw [q.appended]
    exact inv.mark c (q.child ▸ hc)
  diff := fun active c hc => by
    rw [q.diff, q.appended]
    exact inv.diff (q.state ▸ active) c (q.child ▸ hc)
  progress := fun c hc =>
    (inv.progress c (q.child ▸ hc)).mono q.temp fun ino _ => q.data ino

theorem appendLive (inv : RewriteInv h) (frame : Frame h h') :
    h'.disk.Ok h'.aofFd ∧ ∀ c, h.child = some c → Progress h'.disk c := by
  refine ⟨frame.aofFd ▸ frame.disk.ok inv.disk, fun c hc => ?_⟩
  exact (inv.progress c hc).mono frame.disk.temp fun ino ht =>
    frame.disk.data ino (inv.disk.temp ino ht).2

theorem fork (inv : RewriteInv h) : RewriteInv (forkChild h) where
  disk := inv.disk
  idle := by simp [forkChild]
  buf := fun _ => ⟨_, rfl, rfl⟩
  mark := by
    rintro _ ⟨rfl⟩
    exact le_refl _
  diff := by
    rintro _ _ ⟨rfl⟩
    simp [Host.diff, forkChild]
  progress := by
    rintro _ ⟨rfl⟩
    trivial

theorem ended (inv : RewriteInv h) (stopped : Ended h h') : RewriteInv h' where
  disk := by
    rw [stopped.aofFd]
    refine ⟨stopped.aof.trans inv.disk.aof, stopped.next ▸ inv.disk.bound, fun ino ht => ?_⟩
    rcases stopped.temp with gone | same
    · simp [gone] at ht
    · exact stopped.next ▸ inv.disk.temp ino (same ▸ ht)
  idle := by simp [stopped.state, stopped.child]
  buf := fun active => by simp [stopped.state] at active
  mark := fun c hc => by simp [stopped.child] at hc
  diff := fun _ c hc => by simp [stopped.child] at hc
  progress := fun c hc => by simp [stopped.child] at hc

theorem installed {c : Child} {ino : Nat} (inv : RewriteInv h) (done : Installed h h' c ino) :
    RewriteInv h' where
  disk := by
    rw [done.aofFd]
    exact ⟨done.aof, done.next ▸ (inv.disk.temp ino done.temp).1, fun other ht => by
      simp [done.temp'] at ht⟩
  idle := by simp [done.state, done.child']
  buf := fun active => by simp [done.state] at active
  mark := fun c hc => by simp [done.child'] at hc
  diff := fun _ c hc => by simp [done.child'] at hc
  progress := fun c hc => by simp [done.child'] at hc

theorem installed_live {c : Child} {ino : Nat} (inv : RewriteInv h)
    (done : Installed h h' c ino) :
    ∃ createdMs snapshot, SnapshotOf c.clocks c.db c.db.keyspace.entries snapshot ∧
      h'.live = logFile createdMs (snapshot ++ h.appended.drop c.mark) := by
  have progress := inv.progress c done.child
  rw [Progress, done.phase] at progress
  obtain ⟨ino', createdMs, snapshot, temp, snap, bytes⟩ := progress
  obtain rfl : ino = ino' := Option.some.inj (done.temp.symm.trans temp)
  refine ⟨createdMs, snapshot, snap, ?_⟩
  rw [Host.live, done.aofFd, done.data, bytes, inv.diff done.active c done.child, logFile,
    logFile, logBytes_append, List.append_assoc]

theorem cron (inv : RewriteInv h) (outcome : CronOutcome h h') : RewriteInv h' := by
  cases outcome with
  | quiet q => exact inv.quiet q
  | started idle eq => exact eq ▸ inv.fork
  | ended busy stopped => exact inv.ended stopped
  | installed c ino done => exact inv.installed done

theorem append {io : AppendIo} {r : Record} (inv : RewriteInv h) (frame : Frame h h')
    (appended : Appended io r h h') : RewriteInv h' := by
  obtain ⟨disk, progress⟩ := inv.appendLive frame
  cases appended with
  | unlogged off same => exact same ▸ inv
  | torn buf k fault short fits eq =>
    subst eq
    exact ⟨disk, inv.idle, inv.buf, inv.mark, inv.diff, progress⟩
  | whole buf fits live grown inactive active =>
    have longer (c : Child) (hc : h.child = some c) : c.mark ≤ h'.appended.length := by
      rw [grown, List.length_append]
      exact Nat.le_add_right_of_le (inv.mark c hc)
    by_cases now : h.aofRewriteState = .active
    · cases active now with
      | copied state child diff =>
        obtain ⟨buf', diff⟩ := diff inv.buf
        refine ⟨disk, ?_, buf', fun c hc => longer c (child ▸ hc), fun _ c hc => ?_,
          fun c hc => progress c (child ▸ hc)⟩
        · rw [child, ← inv.idle, state, now]
        · rw [diff, inv.diff now c (child ▸ hc), grown,
            List.drop_append_of_le_length (inv.mark c (child ▸ hc)), logBytes_append,
            logBytes_singleton, aofSerialize_bytes fits]
      | aborted state child =>
        obtain ⟨c, hc⟩ : ∃ c, h.child = some c := by
          rw [← Option.ne_none_iff_exists']
          exact fun none => by simp [inv.idle.mpr none] at now
        have killed : h'.child = some (kill h.aofRewritePid c) := by rw [child, hc, Option.map_some]
        have same := kill_same h.aofRewritePid c
        refine ⟨disk, by simp [state, killed], fun active => by simp [state] at active,
          fun c' hc' => ?_, fun active => by simp [state] at active, fun c' hc' => ?_⟩
        · obtain rfl := Option.some.inj (killed.symm.trans hc')
          exact same.mark ▸ longer c hc
        · obtain rfl := Option.some.inj (killed.symm.trans hc')
          exact (progress c hc).sameChild same
    · have same := inactive now
      refine ⟨disk, ?_, fun active => absurd (same.state ▸ active) now,
        fun c hc => longer c (same.child ▸ hc), fun active => absurd (same.state ▸ active) now,
        fun c hc => progress c (same.child ▸ hc)⟩
      rw [same.state, same.child, inv.idle]

theorem withChild {c c' : Child} {disk : Disk} (inv : RewriteInv h) (hc : h.child = some c)
    (mark : c'.mark = c.mark) (ok : disk.Ok h.aofFd) (progress : Progress disk c') :
    RewriteInv { h with child := some c', disk := disk } where
  disk := ok
  idle := by simp [inv.idle, hc]
  buf := inv.buf
  mark := by
    rintro _ ⟨rfl⟩
    exact mark ▸ inv.mark c hc
  diff := by
    rintro active _ ⟨rfl⟩
    exact mark ▸ inv.diff active c hc
  progress := by
    rintro _ ⟨rfl⟩
    exact progress

end RewriteInv

theorem childStep_spec {disk : Disk} {fd : Nat} (ok : disk.Ok fd) (now : Int) (io : ChildIo)
    {c : Child} (h : Progress disk c) :
    (childStep now io c disk).2.Ok fd ∧ (childStep now io c disk).2.data fd = disk.data fd ∧
      Progress (childStep now io c disk).2 (childStep now io c disk).1 := by
  unfold childStep
  split
  · exact childOpen_spec ok now io c
  · exact childRound_spec ok now io ‹_› h
  · exact ⟨ok, rfl, h⟩

theorem childStep_same (now : Int) (io : ChildIo) (c : Child) (disk : Disk) :
    (childStep now io c disk).1.pid = c.pid ∧ (childStep now io c disk).1.db = c.db ∧
      (childStep now io c disk).1.mark = c.mark := by
  unfold childStep
  split <;> exact ⟨rfl, rfl, rfl⟩

theorem childStep_clocks (now : Int) (io : ChildIo) (c : Child) (disk : Disk) :
    (childStep now io c disk).1.clocks = c.clocks ∨
      (childStep now io c disk).1.clocks = c.clocks ++ [now] := by
  unfold childStep
  split
  · exact Or.inr rfl
  · exact Or.inr rfl
  · exact Or.inl rfl

theorem rewriteInv_step {h : Host} (inv : RewriteInv h) (e : Event) : RewriteInv (step h e) := by
  have out := stepped h e
  generalize step h e = h' at out ⊢
  cases out with
  | quiet _ q => exact inv.quiet q
  | mutated r asks makes stored =>
    obtain ⟨frame, appended⟩ := aofAppend_frame _ { h with db := (replayDispatch h.db r.decoded).1 } r
    exact (inv.withDb _).append frame appended
  | refused r asks makes failed => exact inv.withDb _
  | cleaned key makes => exact inv.withDb _
  | started makes idle => exact inv.fork
  | @ticked nowMs nowRealtimeMs io =>
    obtain ⟨g, hg, outcome⟩ := beforeSleep_cases nowMs io h
      (I := RewriteInv) inv.retimed (fun g key _ _ hg => hg.withDb _)
      (fun g g' q hg => hg.quiet q)
    exact hg.cron outcome
  | @childStepped realtimeMs io c hc =>
    obtain ⟨ok, -, progress⟩ := childStep_spec inv.disk realtimeMs io (inv.progress c hc)
    exact inv.withChild hc (childStep_same _ _ _ _).2.2 ok progress
  | childChanged makes c c' hc same q =>
    exact (inv.withChild hc same.mark inv.disk ((inv.progress c hc).sameChild same)).quiet q

theorem rewriteInv_run {h : Host} (inv : RewriteInv h) (events : List Event) :
    RewriteInv (run h events) :=
  Transition.run_invariant_always (I := RewriteInv) (fun _ e inv => rewriteInv_step inv e) inv events

/-! The start of a run. -/

/-- What `init_server` leaves behind, apart from the contents of files and tables. -/
structure Booted (config : ServerConfig) (h : Host) : Prop where
  config : h.config = config
  state : h.aofRewriteState = .idle
  child : h.child = none
  appended : h.appended = []

theorem replayAof_spec {io : BootIo} {h h' : Host} (done : replayAof io h = some h') :
    ∃ db disk, h' = { h with db := db, disk := disk } ∧
      (db = h.db ∨
        ∃ file out, AofLoad.aofLoad file h.db io.clock io.junk io.load = .loaded out ∧ db = out.db) ∧
      (h.disk.WellFormed → disk.WellFormed) := by
  unfold replayAof at done
  split at done
  · obtain rfl := Option.some.inj done
    exact ⟨h.db, h.disk, rfl, Or.inl rfl, id⟩
  · rename_i out load
    obtain rfl := Option.some.inj done
    refine ⟨_, _, rfl, Or.inr ⟨_, out, load, rfl⟩, fun wf => ?_⟩
    cases h.disk.aof with
    | none => exact wf
    | some ino => exact ⟨wf.aof, wf.temp⟩
  · simp at done

theorem openLog_spec {io : BootIo} {realtimeMs : Int} {h h' : Host}
    (done : openLog io realtimeMs h = some h') :
    ∃ disk ino lastSize,
      h' = { h with disk := disk, aofFd := ino, aofRewriteLastSize := lastSize } ∧
        (h.disk.WellFormed → disk.Ok ino) := by
  unfold openLog at done
  split at done
  · simp at done
  · simp only at done
    split at done
    · obtain rfl := Option.some.inj done
      exact ⟨_, _, h.aofRewriteLastSize, rfl, Disk.openAof_ok⟩
    · split at done
      · simp at done
      · rename_i disk hw
        obtain rfl := Disk.writeAll_true hw
        have ok (wf : h.disk.WellFormed) (buf : Bytes) :
            (h.disk.openAof.1.append h.disk.openAof.2 buf).Ok h.disk.openAof.2 :=
          (Disk.append_sameBut _ _ _).ok (Disk.openAof_ok wf)
        obtain rfl := Option.some.inj done
        split
        · exact ⟨_, _, _, rfl, fun wf => ok wf _⟩
        · exact ⟨_, _, h.aofRewriteLastSize, rfl, fun wf => ok wf _⟩

theorem initServer_cases {config : ServerConfig} {disk : Disk}
    {nowMs nowRealtimeMs realtimeMs : Int} {io : BootIo} {h : Host}
    (boot : initServer config disk nowMs nowRealtimeMs realtimeMs io = some h) :
    ∃ db disk' ino lastSize,
      h = { emptyHost config disk nowMs nowRealtimeMs with
        db := db, disk := disk', aofFd := ino, aofRewriteLastSize := lastSize } ∧
      (db = dbCreate nowMs ∨ ∃ file out,
        AofLoad.aofLoad file (dbCreate nowMs) io.clock io.junk io.load = .loaded out ∧ db = out.db) ∧
      (disk.WellFormed → config.aofEnabled = true → disk'.Ok ino) := by
  unfold initServer at boot
  simp only at boot
  split at boot
  · obtain ⟨mid, replayed, opened⟩ := Option.bind_eq_some_iff.mp boot
    obtain ⟨db, disk', rfl, loaded, wf⟩ := replayAof_spec replayed
    obtain ⟨disk'', ino, lastSize, rfl, ok⟩ := openLog_spec opened
    exact ⟨db, disk'', ino, lastSize, rfl, loaded, fun hd _ => ok (wf hd)⟩
  · rename_i off
    obtain rfl := Option.some.inj boot
    exact ⟨dbCreate nowMs, disk, 0, 0, rfl, Or.inl rfl, fun _ on => absurd on off⟩

theorem initServer_spec {config : ServerConfig} {disk : Disk} {nowMs nowRealtimeMs realtimeMs : Int}
    {io : BootIo} {h : Host}
    (boot : initServer config disk nowMs nowRealtimeMs realtimeMs io = some h) :
    Booted config h ∧ (disk.WellFormed → config.aofEnabled = true → RewriteInv h) := by
  obtain ⟨db, disk', ino, lastSize, rfl, -, ok⟩ := initServer_cases boot
  refine ⟨⟨rfl, rfl, rfl, rfl⟩, fun hd on => ⟨ok hd on, by simp [emptyHost], ?_, ?_, ?_, ?_⟩⟩
  · exact fun active => by simp [emptyHost] at active
  · exact fun c hc => by simp [emptyHost] at hc
  · exact fun _ c hc => by simp [emptyHost] at hc
  · exact fun c hc => by simp [emptyHost] at hc

/-! Where an active rewrite came from. -/

def Forked (h : Host) : Prop :=
  h.aofRewriteState = .active ∧
    ∃ pid, h.child = some ⟨pid, h.db, h.appended.length, [], .opening, false⟩

/-- A rewrite active in `h'` was active in `h` already, and its child is the same
process; records are only ever added behind the others. -/
structure Carries (h h' : Host) : Prop where
  active : h'.aofRewriteState = .active → h.aofRewriteState = .active
  child : h'.aofRewriteState = .active → ∀ c', h'.child = some c' →
    ∃ c, h.child = some c ∧ c'.db = c.db ∧ c'.mark = c.mark
  appended : h.appended <+: h'.appended

namespace Carries
variable {h h' h'' : Host}

theorem refl (h : Host) : Carries h h :=
  ⟨id, fun _ c hc => ⟨c, hc, rfl, rfl⟩, List.prefix_refl _⟩

theorem trans (a : Carries h h') (b : Carries h' h'') : Carries h h'' where
  active := fun now => a.active (b.active now)
  child := fun now c'' hc'' => by
    obtain ⟨c', hc', db', mark'⟩ := b.child now c'' hc''
    obtain ⟨c, hc, db, mark⟩ := a.child (b.active now) c' hc'
    exact ⟨c, hc, db'.trans db, mark'.trans mark⟩
  appended := a.appended.trans b.appended

theorem of_same (state : h'.aofRewriteState = h.aofRewriteState) (child : h'.child = h.child)
    (appended : h'.appended = h.appended) : Carries h h' where
  active := fun now => state ▸ now
  child := fun _ c hc => ⟨c, child ▸ hc, rfl, rfl⟩
  appended := appended ▸ List.prefix_refl _

theorem of_quiet (q : Quiet h h') : Carries h h' := of_same q.state q.child q.appended

theorem of_idle (idle : h'.aofRewriteState = .idle) (same : h'.appended = h.appended) :
    Carries h h' where
  active := fun now => by simp [idle] at now
  child := fun now => by simp [idle] at now
  appended := same ▸ List.prefix_refl _

theorem of_child {c c' : Child} {disk : Disk} (hc : h.child = some c) (db : c'.db = c.db)
    (mark : c'.mark = c.mark) : Carries h { h with child := some c', disk := disk } where
  active := id
  child := by
    rintro _ _ ⟨rfl⟩
    exact ⟨c, hc, db, mark⟩
  appended := List.prefix_refl _

theorem of_append {io : AppendIo} {r : Record} (appended : Appended io r h h') : Carries h h' := by
  cases appended with
  | unlogged off same => exact same ▸ refl h
  | torn buf k fault short fits eq => exact eq ▸ of_same rfl rfl rfl
  | whole buf fits live grown inactive active =>
    have longer : h.appended <+: h'.appended := ⟨[r], grown.symm⟩
    by_cases now : h.aofRewriteState = .active
    · cases active now with
      | copied state child diff =>
        exact ⟨fun _ => now, fun _ c hc => ⟨c, child ▸ hc, rfl, rfl⟩, longer⟩
      | aborted state child =>
        exact ⟨fun _ => now, fun active => by simp [state] at active, longer⟩
    · have same := inactive now
      exact ⟨fun active => same.state ▸ active, fun _ c hc => ⟨c, same.child ▸ hc, rfl, rfl⟩, longer⟩

end Carries

theorem forkChild_forked (h : Host) : Forked (forkChild h) := ⟨rfl, h.nextPid, rfl⟩

theorem carries_cron {h h' : Host} (outcome : CronOutcome h h') :
    Carries h h' ∨ Forked h' ∧ h.appended <+: h'.appended := by
  cases outcome with
  | quiet q => exact Or.inl (.of_quiet q)
  | started idle eq => exact Or.inr (eq ▸ ⟨forkChild_forked h, List.prefix_refl _⟩)
  | ended busy stopped => exact Or.inl (.of_idle stopped.state stopped.appended)
  | installed c ino done => exact Or.inl (.of_idle done.state done.appended)

theorem carries_step (h : Host) (e : Event) :
    Carries h (step h e) ∨ Forked (step h e) ∧ h.appended <+: (step h e).appended := by
  have out := stepped h e
  generalize step h e = h' at out ⊢
  cases out with
  | quiet _ q => exact Or.inl (.of_quiet q)
  | mutated r asks makes stored =>
    have kept : Carries h { h with db := (replayDispatch h.db r.decoded).1 } :=
      .of_same rfl rfl rfl
    exact Or.inl (kept.trans (.of_append (aofAppend_frame _ _ r).2))
  | refused r asks makes failed => exact Or.inl (.of_same rfl rfl rfl)
  | cleaned key makes => exact Or.inl (.of_same rfl rfl rfl)
  | started makes idle => exact Or.inr ⟨forkChild_forked h, List.prefix_refl _⟩
  | @ticked nowMs nowRealtimeMs io =>
    obtain ⟨g, hg, outcome⟩ := beforeSleep_cases (I := Carries h) nowMs io h (.of_same rfl rfl rfl)
      (fun g key _ _ hg => hg.trans (.of_same rfl rfl rfl))
      (fun g g' q hg => hg.trans (.of_quiet q))
    exact (carries_cron outcome).imp hg.trans (And.imp_right hg.appended.trans)
  | @childStepped realtimeMs io c hc =>
    obtain ⟨-, db, mark⟩ := childStep_same realtimeMs io c h.disk
    exact Or.inl (.of_child hc db mark)
  | childChanged makes c c' hc same q =>
    have changed : Carries h { h with child := some c' } := .of_child hc same.db same.mark
    exact Or.inl (changed.trans (.of_quiet q))

theorem appended_prefix_step (h : Host) (e : Event) : h.appended <+: (step h e).appended :=
  (carries_step h e).elim Carries.appended And.right

theorem appended_prefix_run (h : Host) (events : List Event) :
    h.appended <+: (run h events).appended :=
  Transition.run_invariant_always (I := fun g => h.appended <+: g.appended)
    (fun g e pre => pre.trans (appended_prefix_step g e)) (List.prefix_refl _) events

/-- An active rewrite was forked at some point of the run, and has been active
ever since. -/
theorem exists_fork {h : Host} (idle : h.aofRewriteState = .idle) (events : List Event)
    (active : (run h events).aofRewriteState = .active) {c : Child}
    (hc : (run h events).child = some c) :
    ∃ before during, events = before ++ during ∧ Forked (run h before) ∧
      c.db = (run h before).db ∧ c.mark = (run h before).appended.length ∧
      ∀ p q, during = p ++ q → (run (run h before) p).aofRewriteState = .active := by
  induction events using List.reverseRecOn generalizing c with
  | nil => simp [run, idle] at active
  | append_singleton events e ih =>
    have last := run_concat h events e
    rw [last] at active hc
    rcases carries_step (run h events) e with carried | ⟨forked, -⟩
    · obtain ⟨c₀, hc₀, db, mark⟩ := carried.child active c hc
      obtain ⟨before, during, rfl, forked, db₀, mark₀, since⟩ := ih (carried.active active) hc₀
      refine ⟨before, during ++ [e], by simp, forked, db.trans db₀, mark.trans mark₀, ?_⟩
      intro p q split
      rcases List.eq_nil_or_concat q with rfl | ⟨q, f, rfl⟩
      · rw [List.append_nil] at split
        have whole : run (run h before) (during ++ [e]) = run h (before ++ during ++ [e]) := by
          rw [← run_append, List.append_assoc]
        rw [← split, whole, last]
        exact active
      · rw [List.concat_eq_append, ← List.append_assoc] at split
        exact since p q (List.append_inj' split rfl).1
    · refine ⟨events ++ [e], [], by simp, last ▸ forked, ?_, ?_, ?_⟩
      · obtain ⟨-, pid, child⟩ := forked
        rw [last, ← Option.some.inj (child.symm.trans hc)]
      · obtain ⟨-, pid, child⟩ := forked
        rw [last, ← Option.some.inj (child.symm.trans hc)]
      · intro p q split
        obtain ⟨rfl, rfl⟩ := List.append_eq_nil_iff.mp split.symm
        exact last ▸ active

/-! Installing a rewrite. -/

/-- The fields that a step either leaves alone or moves only by an installation. -/
structure Steady (h g : Host) : Prop where
  config : g.config = h.config
  state : g.aofRewriteState = h.aofRewriteState
  child : g.child = h.child
  appended : g.appended = h.appended
  completed : g.aofRewritesCompleted = h.aofRewritesCompleted

theorem steady_tick (nowMs nowRealtimeMs : Int) (io : TickIo) (h : Host) :
    ∃ g, (Steady h g ∧ (RewriteInv h → RewriteInv g)) ∧
      CronOutcome g (beforeSleep nowMs nowRealtimeMs io h) := by
  refine beforeSleep_cases (I := fun g => Steady h g ∧ (RewriteInv h → RewriteInv g)) nowMs io h
    ?_ ?_ ?_
  · exact ⟨⟨rfl, rfl, rfl, rfl, rfl⟩, fun inv => inv.retimed⟩
  · rintro g key - - ⟨⟨h1, h2, h3, h4, h5⟩, inv⟩
    exact ⟨⟨h1, h2, h3, h4, h5⟩, fun hi => (inv hi).withDb _⟩
  · rintro g g' q ⟨⟨h1, h2, h3, h4, h5⟩, inv⟩
    exact ⟨⟨q.config.trans h1, q.state.trans h2, q.child.trans h3, q.appended.trans h4,
      q.completed.trans h5⟩, fun hi => (inv hi).quiet q⟩

theorem step_completed (h : Host) (e : Event) :
    (step h e).config = h.config ∧
      ((step h e).aofRewritesCompleted = h.aofRewritesCompleted ∨
        ∃ g c ino, Steady h g ∧ (RewriteInv h → RewriteInv g) ∧ Installed g (step h e) c ino) := by
  have out := stepped h e
  generalize step h e = h' at out ⊢
  cases out with
  | quiet _ q => exact ⟨q.config, Or.inl q.completed⟩
  | @mutated payload io r asks makes stored =>
    have frame := (aofAppend_frame io.append { h with db := (replayDispatch h.db r.decoded).1 } r).1
    exact ⟨frame.config, Or.inl frame.aofRewritesCompleted⟩
  | refused | cleaned | started => exact ⟨rfl, Or.inl rfl⟩
  | childStepped c hc => exact ⟨rfl, Or.inl rfl⟩
  | childChanged makes c c' hc same q => exact ⟨q.config, Or.inl q.completed⟩
  | @ticked nowMs nowRealtimeMs io =>
    obtain ⟨g, ⟨steady, inv⟩, outcome⟩ := steady_tick nowMs nowRealtimeMs io h
    cases outcome with
    | quiet q => exact ⟨q.config.trans steady.config, Or.inl (q.completed.trans steady.completed)⟩
    | started idle eq => exact eq ▸ ⟨steady.config, Or.inl steady.completed⟩
    | ended busy stopped =>
      exact ⟨stopped.config.trans steady.config, Or.inl (stopped.completed.trans steady.completed)⟩
    | installed c ino done =>
      exact ⟨done.config.trans steady.config, Or.inr ⟨g, c, ino, steady, inv, done⟩⟩

theorem config_run (h : Host) (events : List Event) : (run h events).config = h.config :=
  Transition.run_invariant_always (I := fun g => g.config = h.config)
    (fun g e same => (step_completed g e).1.trans same) rfl events

end ByteKV.RewriteInvariant
