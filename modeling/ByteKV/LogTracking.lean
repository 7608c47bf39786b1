import ByteKV.LogInvariant
import ByteKV.Recovery

/-! The log keeps step with the store. `t` is the time of a later load: as long as no
step updates a key in a way that the passing of its deadline by `t` would change,
replaying the log at `t` gives the store as it is at `t`, and so does a snapshot with
the diff behind it. -/
namespace ByteKV.LogTracking
open Config Database HashTable FileIo AofRecord ServerState AofAppend AofRewrite ServerRun
open StepCases RewriteInvariant StoreInvariant LogInvariant Command ExpiringLog AofLoad Recovery

/-! The records of this log as entries of an expiring log. -/

theorem requestRecord_stamped {nowRealtimeMs : Int} {payload : Bytes} {r : Record}
    (asks : requestRecord nowRealtimeMs payload = some r) : r.entry.Stamped := by
  rw [requestRecord_bind] at asks
  obtain ⟨proc, -, asks⟩ := Option.bind_eq_some_iff.mp asks
  apply Record.entry_stamped
  cases proc with
  | set | persist | del =>
    obtain rfl := Option.some.inj asks
    exact Or.inr (Or.inr rfl)
  | setex =>
    obtain ⟨seconds, -, rfl⟩ := Option.map_eq_some_iff.mp asks
    exact Or.inl rfl
  | expire =>
    obtain ⟨seconds, -, rfl⟩ := Option.map_eq_some_iff.mp asks
    exact Or.inr (Or.inl rfl)
  | _ => simp [procRecord] at asks

theorem childRecord_entry {db : Db} (ok : StoreOk db.cells) (e : HtEntry Bytes) :
    (childRecord db e).entry = db.cells.entryOf e.key e.val := by
  unfold childRecord Cells.entryOf
  rw [cells_due]
  cases hd : db.expires.get e.key with
  | none => rfl
  | some expire =>
    have pos := (ok.stamps e.key expire hd).1
    simp [Record.entry, Record.update, setexOp, pos]

theorem snapshot_entries {clocks : List Int} {t : Int} {db : Db} (ok : StoreOk db.cells)
    (early : ∀ now ∈ clocks, now ≤ t) {es : List (HtEntry Bytes)} {rs : List Record}
    (snap : SnapshotOf clocks db es rs) :
    Snapshot t db.cells (es.map fun e => (e.key, e.val)) (rs.map Record.entry) := by
  induction snap with
  | nil => exact .nil
  | @skip e es rs now read dead _ ih =>
    refine .skip ?_ ih
    unfold childSkips at dead
    rw [cells_due]
    cases hd : db.expires.get e.key with
    | none => simp [hd] at dead
    | some expire =>
      rw [hd] at dead
      have early := early now read
      simp only [decide_eq_true_eq] at dead
      simp only [past_some, decide_eq_true_eq]
      omega
  | @take e es rs _ _ ih =>
    rw [List.map_cons, List.map_cons, childRecord_entry ok]
    exact .take ih

/-- Replaying `rs` at `t` on what is left of `base` gives what is left of `c`. -/
def Follows (t : Int) (rs : List Record) (base c : Cells Bytes Bytes Int) : Prop :=
  replay t (rs.map Record.entry) (settle t base) = (settle t c, true)

namespace Follows
variable {t : Int} {rs qs : List Record} {a b c : Cells Bytes Bytes Int}

theorem refl (c : Cells Bytes Bytes Int) : Follows t [] c c := rfl

theorem trans (h : Follows t rs a b) (h' : Follows t qs b c) : Follows t (rs ++ qs) a c := by
  rw [Follows, List.map_append, replay_append, h]
  exact h'

theorem settled (h : Follows t rs a b) (same : settle t c = settle t b) : Follows t rs a c := by
  rw [Follows, same]
  exact h

theorem append {r : Record} (h : Follows t rs a c) (consistent : c.Consistent)
    (stamp : r.entry.Stamped) (safe : r.entry.Safe t c) (ok : (r.entry.apply c).2 = true) :
    Follows t (rs ++ [r]) a (r.entry.apply c).1 :=
  h.trans (replay_settle consistent stamp safe ok)

theorem snapshot {clocks : List Int} {db : Db} (ok : StoreOk db.cells)
    (consistent : db.cells.Consistent) (early : ∀ now ∈ clocks, now ≤ t)
    (snap : SnapshotOf clocks db db.keyspace.entries rs) : Follows t rs .empty db.cells := by
  rw [Follows, settle_empty]
  refine replay_snapshot (snapshot_entries ok early snap) ?_ (fun k v => ?_) consistent
  · rw [List.map_map]
    exact db.keyspace.keys_nodup
  · rw [cells_val, ← db.keyspace.mem_entries_iff]
    constructor
    · intro h
      obtain ⟨e, he, eq⟩ := List.mem_map.mp h
      obtain ⟨rfl, rfl⟩ := Prod.mk.inj eq
      exact he
    · exact fun h => List.mem_map.mpr ⟨_, h, rfl⟩

end Follows

/-- Nothing in this step tells the store and its replay at `t` apart. -/
def SafeStep (t : Int) (h : Host) : Event → Prop
  | .request payload io => .error ∉ io.append.writes ∧
      ∀ r ∈ mutation h (.request payload io),
        r.key.length + r.value.length ≤ aofPayloadMax ∧ r.entry.Safe t h.db.cells
  | .tick _ nowRealtimeMs io => nowRealtimeMs ≤ t ∧
      ∀ key, past nowRealtimeMs (h.db.cells.due key) → io.released key = key
  | .child realtimeMs _ => realtimeMs ≤ t
  | _ => True

theorem SafeStep.unclobbered {t : Int} {h : Host} {e : Event} (safe : SafeStep t h e) :
    Unclobbered h e := by
  cases e with
  | tick nowMs nowRealtimeMs io => exact safe.2
  | _ => trivial

theorem settle_expired {db : Db} {t now : Int} (early : now ≤ t) (key : Bytes) :
    settle t (dbExpireClean db key now).1.cells = settle t db.cells := by
  rw [(dbExpireClean_cells db key now).2]
  split
  · rename_i passed
    exact settle_erase (past_mono early passed)
  · rfl

/-- The rewrite keeps step: the diff leads from the child's store to the parent's. -/
structure Tracks (t : Int) (h : Host) : Prop where
  enabled : h.config.aofEnabled = true
  clock : h.nowRealtimeMs ≤ t
  clocks : ∀ c, h.child = some c → ∀ now ∈ c.clocks, now ≤ t
  consistent : Stores Cells.Consistent h
  diff : h.aofRewriteState = .active → ∀ c, h.child = some c →
    Follows t (h.appended.drop c.mark) c.db.cells h.db.cells

/-- The log keeps step: replayed from nothing, it gives the store. -/
def LogTracks (t : Int) (h : Host) : Prop :=
  ∃ createdMs rs, (∀ r ∈ rs, Loggable r) ∧ h.live = logFile createdMs rs ∧
    Follows t rs .empty h.db.cells

section Step
variable {t : Int} {h h' : Host}

theorem mutated_appended {io : AppendIo} {r : Record} {db : Db}
    (enabled : h.config.aofEnabled = true)
    (written : .error ∉ io.writes) (fits : r.key.length + r.value.length ≤ aofPayloadMax)
    (appended : Appended io r { h with db := db } h') :
    h'.live = h.live ++ r.bytes ∧ h'.appended = h.appended ++ [r] ∧
      (h'.aofRewriteState = .active → h.aofRewriteState = .active ∧ h'.child = h.child) := by
  cases appended with
  | unlogged off same => simp [enabled, aofSerialize_some fits] at off
  | torn buf k fault short _ eq => simp [faultAfter_eq_none written] at fault
  | whole buf fits live grown inactive active =>
    refine ⟨by rw [live, aofSerialize_bytes fits]; rfl, grown, fun now => ?_⟩
    by_cases was : h.aofRewriteState = .active
    · cases active was with
      | copied state child diff => exact ⟨was, child⟩
      | aborted state child => simp [state] at now
    · exact absurd ((inactive was).state ▸ now) was

namespace Tracks

theorem quiet (tracks : Tracks t h) (q : Quiet h h') : Tracks t h' where
  enabled := q.config ▸ tracks.enabled
  clock := q.clock ▸ tracks.clock
  clocks := fun c hc => tracks.clocks c (q.child ▸ hc)
  consistent := tracks.consistent.cron (.quiet q)
  diff := fun active c hc => by
    rw [q.appended, q.db]
    exact tracks.diff (q.state ▸ active) c (q.child ▸ hc)

theorem settled (tracks : Tracks t h) {db : Db} (consistent : db.cells.Consistent)
    (same : settle t db.cells = settle t h.db.cells) : Tracks t { h with db := db } where
  enabled := tracks.enabled
  clock := tracks.clock
  clocks := tracks.clocks
  consistent := ⟨consistent, tracks.consistent.fork⟩
  diff := fun active c hc => (tracks.diff active c hc).settled same

theorem retimed (tracks : Tracks t h) {nowMs nowRealtimeMs : Int} {cronloops : Nat}
    (early : nowRealtimeMs ≤ t) :
    Tracks t { h with
      nowMs := nowMs, nowRealtimeMs := nowRealtimeMs, cronloops := cronloops } :=
  ⟨tracks.enabled, early, tracks.clocks, ⟨tracks.consistent.store, tracks.consistent.fork⟩,
    tracks.diff⟩

theorem forked (tracks : Tracks t h) : Tracks t (forkChild h) where
  enabled := tracks.enabled
  clock := tracks.clock
  clocks := by
    rintro _ ⟨rfl⟩
    simp
  consistent := by
    refine ⟨tracks.consistent.store, ?_⟩
    rintro _ ⟨rfl⟩
    exact tracks.consistent.store
  diff := by
    rintro - _ ⟨rfl⟩
    have none : h.appended.drop h.appended.length = [] := List.drop_length
    exact none ▸ .refl h.db.cells

theorem childless (tracks : Tracks t h) (config : h'.config = h.config)
    (clock : h'.nowRealtimeMs = h.nowRealtimeMs) (db : h'.db = h.db) (child : h'.child = none) :
    Tracks t h' where
  enabled := config ▸ tracks.enabled
  clock := clock ▸ tracks.clock
  clocks := fun c hc => by simp [child] at hc
  consistent := ⟨db ▸ tracks.consistent.store, fun c hc => by simp [child] at hc⟩
  diff := fun _ c hc => by simp [child] at hc

theorem cron (tracks : Tracks t h) (outcome : CronOutcome h h') : Tracks t h' := by
  cases outcome with
  | quiet q => exact tracks.quiet q
  | started idle eq => exact eq ▸ tracks.forked
  | ended busy stopped => exact tracks.childless stopped.config stopped.clock stopped.db stopped.child
  | installed c ino done => exact tracks.childless done.config done.clock done.db done.child'

theorem swept (tracks : Tracks t h) {now : Int} {key released : Bytes} (early : now ≤ t)
    (unclobbered : released = key) (passed : past now (h.db.cells.due key)) :
    Tracks t { h with db := (dbDelThrough h.db key released).1 } ∧
      settle t (dbDelThrough h.db key released).1.cells = settle t h.db.cells := by
  have same : settle t (h.db.cells.erase key) = settle t h.db.cells :=
    settle_erase (past_mono early passed)
  have erased : (dbDelThrough h.db key released).1.cells = h.db.cells.erase key := by
    rw [unclobbered, dbDelThrough_self_cells]
  rw [← erased] at same
  refine ⟨tracks.settled ?_ same, same⟩
  rw [erased]
  exact Cells.erase_consistent tracks.consistent.store key

theorem dispatch {r : Record} (tracks : Tracks t h) (safe : r.entry.Safe t h.db.cells)
    (stamp : r.entry.Stamped) (stored : (replayDispatch h.db r.decoded).2 = true) :
    Follows t [r] h.db.cells (replayDispatch h.db r.decoded).1.cells := by
  obtain ⟨cells, ok⟩ := dispatch_cells h.db r
  rw [cells]
  exact (Follows.refl _).append tracks.consistent.store stamp safe (ok ▸ stored)

end Tracks

theorem tracks_step {e : Event} (tracks : Tracks t h) (rewrite : RewriteInv h)
    (safe : SafeStep t h e) : Tracks t (step h e) := by
  have consistent := stores_step consistent_kept tracks.consistent (fun _ _ => trivial)
    (consistent_kept.sweepKeeps safe.unclobbered)
  have out := stepped h e
  generalize step h e = h' at out consistent ⊢
  cases out with
  | quiet _ q => exact tracks.quiet q
  | @mutated payload io r asks makes stored =>
    obtain ⟨written, safe⟩ := safe
    obtain ⟨fits, safe⟩ := safe r makes
    obtain ⟨frame, appended⟩ :=
      aofAppend_frame io.append { h with db := (replayDispatch h.db r.decoded).1 } r
    have follows := tracks.dispatch safe (requestRecord_stamped asks) stored
    obtain ⟨-, grown, still⟩ := mutated_appended tracks.enabled written fits appended
    refine ⟨(congrArg ServerConfig.aofEnabled frame.config).trans tracks.enabled,
      frame.nowRealtimeMs.trans_le tracks.clock, fun c' hc' => ?_, consistent,
      fun active c hc => ?_⟩
    · obtain ⟨c, hc, same⟩ := appended.child hc'
      exact same.clocks ▸ tracks.clocks c hc
    · obtain ⟨was, child⟩ := still active
      have held : h.child = some c := child ▸ hc
      rw [grown, List.drop_append_of_le_length (rewrite.mark c held), frame.db]
      exact (tracks.diff was c held).trans follows
  | refused r asks makes failed =>
    obtain ⟨cells, ok⟩ := dispatch_cells h.db r
    refine tracks.settled consistent.store ?_
    rw [cells, Entry.apply_refused_eq tracks.consistent.store (ok ▸ failed)]
  | cleaned key makes => exact tracks.settled consistent.store (settle_expired tracks.clock key)
  | started makes idle => exact tracks.forked
  | @ticked nowMs nowRealtimeMs io =>
    obtain ⟨early, unclobbered⟩ := safe
    obtain ⟨g, hg, outcome⟩ := beforeSleep_cases nowMs io h (I := Tracks t) (tracks.retimed early)
      (fun g key due passed hg => (hg.swept early (unclobbered key due) passed).1)
      (fun g g' q hg => hg.quiet q)
    exact hg.cron outcome
  | @childStepped realtimeMs io c hc =>
    obtain ⟨-, db, mark⟩ := childStep_same realtimeMs io c h.disk
    refine ⟨tracks.enabled, tracks.clock, ?_, consistent, ?_⟩
    · rintro _ ⟨rfl⟩ now read
      rcases childStep_clocks realtimeMs io c h.disk with same | later
      · exact tracks.clocks c hc now (same ▸ read)
      · rw [later] at read
        rcases List.mem_append.mp read with read | read
        · exact tracks.clocks c hc now read
        · exact List.mem_singleton.mp read ▸ safe
    · rintro active _ ⟨rfl⟩
      rw [db, mark]
      exact tracks.diff active c hc
  | childChanged makes c c' hc same q =>
    have changed : Tracks t { h with child := some c' } := by
      refine ⟨tracks.enabled, tracks.clock, ?_, ⟨tracks.consistent.store, ?_⟩, ?_⟩
      · rintro _ ⟨rfl⟩
        exact same.clocks ▸ tracks.clocks c hc
      · rintro _ ⟨rfl⟩
        exact same.db ▸ tracks.consistent.fork c hc
      · rintro active _ ⟨rfl⟩
        rw [same.db, same.mark]
        exact tracks.diff active c hc
    exact changed.quiet q

theorem Tracks.installed {c : Child} {ino : Nat} (tracks : Tracks t h) (inv : Sound h)
    (done : Installed h h' c ino) : LogTracks t h' := by
  obtain ⟨createdMs, snapshot, snap, live⟩ := inv.rewrite.installed_live done
  have ok := inv.stores.fork c done.child
  have base := Follows.snapshot ok (tracks.consistent.fork c done.child)
    (tracks.clocks c done.child) snap
  refine ⟨createdMs, _, fun r hr => ?_, live,
    done.db ▸ base.trans (tracks.diff done.active c done.child)⟩
  rcases List.mem_append.mp hr with hr | hr
  · exact snapshot_loggable ok snap (entries_held c.db) r hr
  · exact inv.appended r (List.mem_of_mem_drop hr)

theorem LogTracks.settled (log : LogTracks t h) (live : h'.live = h.live)
    (same : settle t h'.db.cells = settle t h.db.cells) : LogTracks t h' := by
  obtain ⟨createdMs, rs, all, bytes, follows⟩ := log
  exact ⟨createdMs, rs, all, live.trans bytes, follows.settled same⟩

theorem Tracks.installs {e : Event} (tracks : Tracks t h) (inv : Sound h) (safe : SafeStep t h e)
    (installs : (step h e).aofRewritesCompleted ≠ h.aofRewritesCompleted) :
    LogTracks t (step h e) := by
  have out := stepped h e
  generalize step h e = h' at out installs ⊢
  cases out with
  | quiet _ q => exact absurd q.completed installs
  | @mutated payload io r asks makes stored =>
    have frame := (aofAppend_frame io.append { h with db := (replayDispatch h.db r.decoded).1 } r).1
    exact absurd frame.aofRewritesCompleted installs
  | refused | cleaned | started | childStepped => exact absurd rfl installs
  | childChanged makes c c' hc same q => exact absurd q.completed installs
  | @ticked nowMs nowRealtimeMs io =>
    obtain ⟨g, ⟨hg, inv', count⟩, outcome⟩ := beforeSleep_cases nowMs io h
      (I := fun g => Tracks t g ∧ Sound g ∧ g.aofRewritesCompleted = h.aofRewritesCompleted)
      ⟨tracks.retimed safe.1, inv.retimed, rfl⟩
      (fun g key due passed hg => ⟨(hg.1.swept safe.1 (safe.2 key due) passed).1,
        hg.2.1.swept key _, hg.2.2⟩)
      (fun g g' q hg => ⟨hg.1.quiet q, hg.2.1.quiet q, q.completed.trans hg.2.2⟩)
    cases outcome with
    | quiet q => exact absurd (q.completed.trans count) installs
    | started idle eq => exact absurd (eq ▸ count) installs
    | ended busy stopped => exact absurd (stopped.completed.trans count) installs
    | installed c ino done => exact hg.installed inv' done

theorem LogTracks.cron (log : LogTracks t h) (tracks : Tracks t h) (inv : Sound h)
    (outcome : CronOutcome h h') : LogTracks t h' := by
  cases outcome with
  | quiet q => exact log.settled q.live (congrArg _ (congrArg _ q.db))
  | started idle eq => exact eq ▸ log.settled rfl rfl
  | ended busy stopped =>
    exact log.settled (stopped.live inv.rewrite.disk) (congrArg _ (congrArg _ stopped.db))
  | installed c ino done => exact tracks.installed inv done

theorem logTracks_step {e : Event} (log : LogTracks t h) (tracks : Tracks t h) (inv : Sound h)
    (safe : SafeStep t h e) : LogTracks t (step h e) := by
  have out := stepped h e
  generalize step h e = h' at out ⊢
  cases out with
  | quiet _ q => exact log.settled q.live (congrArg _ (congrArg _ q.db))
  | @mutated payload io r asks makes stored =>
    obtain ⟨written, safe⟩ := safe
    obtain ⟨fits, safe⟩ := safe r makes
    obtain ⟨key, value, stamp⟩ := requestRecord_wellFormed asks
    obtain ⟨frame, appended⟩ :=
      aofAppend_frame io.append { h with db := (replayDispatch h.db r.decoded).1 } r
    obtain ⟨live, -, -⟩ := mutated_appended tracks.enabled written fits appended
    obtain ⟨createdMs, rs, all, bytes, follows⟩ := log
    refine ⟨createdMs, rs ++ [r], fun q hq => ?_, ?_, ?_⟩
    · rcases List.mem_append.mp hq with hq | hq
      · exact all q hq
      · exact List.mem_singleton.mp hq ▸ ⟨key, value, fits, stamp⟩
    · rw [live, bytes, logFile, logFile, logBytes_append, logBytes_singleton, List.append_assoc]
    · rw [frame.db]
      exact follows.trans (tracks.dispatch safe (requestRecord_stamped asks) stored)
  | refused r asks makes failed =>
    obtain ⟨cells, ok⟩ := dispatch_cells h.db r
    refine log.settled rfl ?_
    rw [cells, Entry.apply_refused_eq tracks.consistent.store (ok ▸ failed)]
  | cleaned key makes => exact log.settled rfl (settle_expired tracks.clock key)
  | started makes idle => exact log.settled rfl rfl
  | @ticked nowMs nowRealtimeMs io =>
    obtain ⟨g, ⟨hg, log', inv'⟩, outcome⟩ := beforeSleep_cases nowMs io h
      (I := fun g => Tracks t g ∧ LogTracks t g ∧ Sound g)
      ⟨tracks.retimed safe.1, log.settled rfl rfl, inv.retimed⟩
      (fun g key due passed hg => by
        obtain ⟨tracks', same⟩ := hg.1.swept safe.1 (safe.2 key due) passed
        exact ⟨tracks', hg.2.1.settled rfl same, hg.2.2.swept key _⟩)
      (fun g g' q hg => ⟨hg.1.quiet q, hg.2.1.settled q.live (congrArg _ (congrArg _ q.db)),
        hg.2.2.quiet q⟩)
    exact log'.cron hg inv' outcome
  | @childStepped realtimeMs io c hc =>
    have same := (childStep_spec inv.rewrite.disk realtimeMs io (inv.rewrite.progress c hc)).2.1
    exact log.settled same rfl
  | childChanged makes c c' hc same q =>
    exact log.settled (q.live.trans rfl) (congrArg _ (congrArg _ q.db))

end Step

theorem LogTracks.load {t : Int} {h : Host} (log : LogTracks t h) (startMs : Int) {junk : Bytes}
    (hjunk : junk.length = aofRecordMax) {io : LoadIo} (hio : io.Ok) :
    ∃ out, aofLoad (some h.live) (dbCreate startMs) (fun _ => t) junk io = .loaded out ∧
      Clean h.live out ∧ out.db.cells = settle t h.db.cells := by
  obtain ⟨createdMs, rs, all, live, follows⟩ := log
  obtain ⟨ls, rfl⟩ := exists_logRecords all
  rw [← image_eq_logFile] at live
  obtain ⟨out, load, cells, clean⟩ := aofLoad_entries createdMs ls t startMs hjunk hio
  have whole : replay t (entries ls) .empty = (settle t h.db.cells, true) := by
    rw [Follows, settle_empty, List.map_map] at follows
    exact follows
  rw [live]
  refine ⟨out, load, clean.mpr ((replay_holds t (entries ls)).1.mp (congrArg Prod.snd whole)), ?_⟩
  rw [cells, whole]

structure InStep (t : Int) (h : Host) : Prop where
  inv : Sound h
  tracks : Tracks t h
  log : LogTracks t h

theorem InStep.step {t : Int} {h : Host} {e : Event} (now : InStep t h) (safe : SafeStep t h e) :
    InStep t (step h e) :=
  ⟨now.inv.step e, tracks_step now.tracks now.inv.rewrite safe,
    logTracks_step now.log now.tracks now.inv safe⟩

end ByteKV.LogTracking
