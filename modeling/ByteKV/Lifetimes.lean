import ByteKV.Journal
import ByteKV.PowerLoss

/-! One log through any number of lives of the server. A life starts with `init_server` and
ends anywhere, in the middle of a write too, and the power may go with it. What the next life
finds is a journal of all mutations: it replays to the store, whatever rewrites have made of
the file in between. -/
namespace ByteKV.Lifetimes
open Config Database FileIo AofRecord ServerState AofAppend AofRewrite ServerRun StepCases
open RewriteInvariant StoreInvariant LogInvariant LogTracking Command ExpiringLog AofLoad
open Recovery PowerLoss
open Emission (Path emitted)
open Journal (State Label)

structure Boot where
  config : ServerConfig
  nowMs : Int
  nowRealtimeMs : Int
  realtimeMs : Int
  io : BootIo

def Boot.start (b : Boot) (disk : Disk) : Option Host :=
  initServer b.config disk b.nowMs b.nowRealtimeMs b.realtimeMs b.io

/-- No read of the log fails, and the clock stands still while it is loaded. -/
structure Boot.Ok (b : Boot) : Prop where
  enabled : b.config.aofEnabled = true
  statted : b.io.statted = true
  junk : b.io.junk.length = aofRecordMax
  load : b.io.load.Ok
  clock : b.io.clock = fun _ => b.nowRealtimeMs

/-- The end of a life, perhaps in the write of the record of `request`. The log is then the file
that the directory says, with its first `kept` bytes. Under the name of its own temp file, which has
its pid in it, the next process finds `temp`: as a rule nothing. -/
structure Death where
  request : Option Bytes := none
  power : Bool := false
  aof : Option Nat
  kept : Nat
  temp : Option Bytes := none

def Death.record (d : Death) (h : Host) : Option Record :=
  d.request.bind fun payload => mutation h (.request payload {})

def Death.written (d : Death) (h : Host) : Disk :=
  h.disk.append h.aofFd (logBytes (d.record h).toList)

def Death.whole (d : Death) (h : Host) : Bytes := h.live ++ logBytes (d.record h).toList

/-- Only a power loss takes anything back. What fsync has put on the device stays in its file, but
nothing flushes a directory: the log may be another file than before, or none. -/
def Death.Possible (d : Death) (h : Host) : Prop :=
  if d.power then ∀ ino, d.aof = some ino → h.disk.synced ino ≤ d.kept
  else d.aof = h.disk.aof ∧ h.live.length ≤ d.kept

/-- The directory says what it said, and the header of the log is there, which no start flushes. -/
structure Death.Survived (d : Death) (h : Host) : Prop where
  aof : d.aof = h.disk.aof
  header : aofFileHeaderSize ≤ d.kept

def Death.leaves (d : Death) (h : Host) : Disk :=
  let disk := { d.written h with aof := d.aof, temp := none }
  let disk := d.aof.elim disk fun ino => disk.truncateTo ino ((disk.data ino).take d.kept)
  d.temp.elim disk fun bytes => disk.createTemp.1.append disk.createTemp.2 bytes

structure Life where
  boot : Boot
  events : List Event
  death : Death

def Life.leaves (life : Life) (h : Host) : Disk := life.death.leaves (run h life.events)

/-! What happens to the journal. -/

instance (h : Host) : Decidable (Flushed h) := inferInstanceAs (Decidable (_ = _))

/-- An event appends the mutation it makes; and after it the log may all be on the device. -/
def labels (h : Host) (e : Event) : List (Label Record) :=
  (mutation h e).toList.map .append ++ if Flushed (step h e) then [.flush] else []

def Death.labels (d : Death) (h : Host) : List (Label Record) :=
  (if (d.whole h).length ≤ d.kept then (d.record h).toList.map .append else []) ++
    if d.power then [.powerLoss] else []

def Life.labels (life : Life) (h : Host) : List (Label Record) :=
  emitted step Lifetimes.labels h life.events ++ life.death.labels (run h life.events)

def outcome : Disk → List Life → Option (Disk × List (Label Record))
  | disk, [] => some (disk, [])
  | disk, life :: lives =>
      (life.boot.start disk).bind fun h =>
        (outcome (life.leaves h) lives).map fun (disk, ls) => (disk, life.labels h ++ ls)

/-- Nothing in the life tells its store and a replay at `t` apart. -/
structure Life.Safe (t : Int) (h : Host) (life : Life) : Prop where
  clock : life.boot.nowRealtimeMs ≤ t
  events : Transition.Along step (SafeStep t) h life.events
  death : ∀ payload ∈ life.death.request, SafeStep t (run h life.events) (.request payload {})

/-- The times of the restarts after these lives, of which `t` is the last. -/
def restarts (lives : List Life) (t : Int) : List Int := lives.map (·.boot.nowRealtimeMs) ++ [t]

def Careful (t : Int) : Disk → List Life → Prop
  | _, [] => True
  | disk, life :: lives => life.boot.Ok ∧ ∀ h, life.boot.start disk = some h →
      (∀ u ∈ restarts lives t, life.Safe u h) ∧ life.death.Possible (run h life.events) ∧
        Careful t (life.leaves h) lives

/-- No power loss takes back the entry of the log in its directory, or the header. That is for the
file system to give: the server flushes neither. -/
def EntriesSurvive : Disk → List Life → Prop
  | _, [] => True
  | disk, life :: lives => ∀ h, life.boot.start disk = some h →
      (life.death.power = true → life.death.Survived (run h life.events)) ∧
        EntriesSurvive (life.leaves h) lives

/-! A log stands for a journal. -/

structure Written (T : Int → Prop) (j : State Record) (createdMs : Int) (rs : List Record)
    (bytes : Bytes) (synced : Nat) : Prop where
  bytes : bytes = logFile createdMs (rs ++ j.pending)
  loggable : ∀ r ∈ rs ++ j.pending, Loggable r
  synced : (logFile createdMs rs).length ≤ max synced aofFileHeaderSize
  same : ∀ t, T t →
    replay t (rs.map Record.entry) .empty = replay t (j.safe.map Record.entry) .empty

def Stored (T : Int → Prop) (j : State Record) : Prop :=
  ∀ n, j.durable ≤ n → ∃ c, ∀ t, T t → Follows t (j.items.take n) .empty c

structure Held (T : Int → Prop) (j : State Record) (h : Host) : Prop where
  store : ∀ t, T t → Follows t j.items .empty h.db.cells
  stored : Stored T j
  written : ∃ createdMs rs, Written T j createdMs rs h.live (h.disk.synced h.aofFd)

structure Backed (T : Int → Prop) (j : State Record) (h : Host) : Prop extends Held T j h where
  sound : Sound h
  tracks : ∀ t, T t → Tracks t h

theorem follows_empty {t : Int} {rs : List Record} {c : Cells Bytes Bytes Int}
    (follows : Follows t rs .empty c) : replay t (rs.map Record.entry) .empty = (settle t c, true) := by
  rwa [Follows, settle_empty] at follows

section Written
variable {T : Int → Prop} {j : State Record} {createdMs : Int} {rs : List Record} {bytes : Bytes}
  {synced : Nat}

theorem Written.replays (written : Written T j createdMs rs bytes synced) {t : Int} (ht : T t) :
    replay t ((rs ++ j.pending).map Record.entry) .empty =
      replay t (j.items.map Record.entry) .empty := by
  rw [← j.safe_append_pending, List.map_append, List.map_append, replay_append, replay_append,
    written.same t ht]

theorem Written.append (written : Written T j createdMs rs bytes synced) {r : Record}
    (loggable : Loggable r) :
    Written T (j.append r) createdMs rs (bytes ++ r.bytes) synced where
  bytes := by
    rw [written.bytes, j.append_pending, ← List.append_assoc rs]
    simp [logFile]
  loggable q hq := by
    rw [j.append_pending, ← List.append_assoc] at hq
    rcases List.mem_append.mp hq with old | new
    · exact written.loggable q old
    · exact List.mem_singleton.mp new ▸ loggable
  synced := written.synced
  same t ht := by rw [j.append_safe, written.same t ht]

theorem Written.flush (written : Written T j createdMs rs bytes synced)
    (all : bytes.length ≤ synced) : Written T j.flush createdMs (rs ++ j.pending) bytes synced where
  bytes := by rw [j.flush_pending, List.append_nil, written.bytes]
  loggable := by
    rw [j.flush_pending, List.append_nil]
    exact written.loggable
  synced := by
    rw [← written.bytes]
    exact all.trans (le_max_left _ _)
  same t ht := by rw [j.flush_safe, written.replays ht]

theorem Written.more (written : Written T j createdMs rs bytes synced) {synced' : Nat}
    (le : synced ≤ synced') : Written T j createdMs rs bytes synced' :=
  ⟨written.bytes, written.loggable, written.synced.trans (max_le_max_right _ le), written.same⟩

theorem Stored.append (stored : Stored T j) {r : Record} {c : Cells Bytes Bytes Int}
    (last : ∀ t, T t → Follows t (j.items ++ [r]) .empty c) : Stored T (j.append r) := by
  intro n le
  change ∃ c, ∀ t, T t → Follows t ((j.items ++ [r]).take n) .empty c
  by_cases old : n ≤ j.items.length
  · rw [List.take_append_of_le_length old]
    exact stored n le
  · rw [List.take_of_length_le (by rw [List.length_append, List.length_singleton]; omega)]
    exact ⟨c, last⟩

theorem Stored.flush (stored : Stored T j) : Stored T j.flush := fun n all =>
  stored n (j.bound.trans all)

end Written

section Step
variable {T : Int → Prop} {j : State Record} {h h' : Host}

theorem Held.flush (held : Held T j h) (flushed : Flushed h) : Held T j.flush h := by
  obtain ⟨createdMs, rs, written⟩ := held.written
  exact ⟨held.store, held.stored.flush, createdMs, _, written.flush flushed.ge⟩

theorem Held.settled (held : Held T j h) (live : h'.live = h.live)
    (synced : h.disk.synced h.aofFd ≤ h'.disk.synced h'.aofFd)
    (same : ∀ t, T t → settle t h'.db.cells = settle t h.db.cells) : Held T j h' := by
  obtain ⟨createdMs, rs, written⟩ := held.written
  exact ⟨fun t ht => (held.store t ht).settled (same t ht), held.stored, createdMs, rs,
    live ▸ written.more synced⟩

theorem synced_le (inv : RewriteInv h) (preserves : Preserves h h') (same : h'.aofFd = h.aofFd) :
    h.disk.synced h.aofFd ≤ h'.disk.synced h'.aofFd := by
  rw [same]
  exact (preserves.keeps.file h.aofFd inv.disk.bound fun named => (inv.disk.temp _ named).2 rfl).2.2

theorem installed_held (store : ∀ t, T t → Follows t j.items .empty h.db.cells)
    (stored : Stored T j) (sound : Sound h) (tracks : ∀ t, T t → Tracks t h) {c : Child} {ino : Nat}
    (done : Installed h h' c ino) (flushed : Flushed h') : Held T j.flush h' := by
  obtain ⟨createdMs, snapshot, snap, live⟩ := sound.rewrite.installed_live done
  have ok := sound.stores.fork c done.child
  have kept (t : Int) (ht : T t) : Follows t j.items .empty h'.db.cells := by
    rw [done.db]
    exact store t ht
  have bytes : h'.live =
      logFile createdMs ((snapshot ++ h.appended.drop c.mark) ++ j.flush.pending) := by
    rw [j.flush_pending, List.append_nil, live]
  refine ⟨kept, stored.flush, createdMs, snapshot ++ h.appended.drop c.mark, bytes, fun r hr => ?_,
    ?_, fun t ht => ?_⟩
  · rw [j.flush_pending, List.append_nil] at hr
    rcases List.mem_append.mp hr with hr | hr
    · exact snapshot_loggable ok snap (entries_held c.db) r hr
    · exact sound.appended r (List.mem_of_mem_drop hr)
  · rw [j.flush_pending, List.append_nil] at bytes
    rw [← bytes, ← flushed]
    exact le_max_left _ _
  · have base := Follows.snapshot ok ((tracks t ht).consistent.fork c done.child)
      ((tracks t ht).clocks c done.child) snap
    have follows := done.db ▸ base.trans ((tracks t ht).diff done.active c done.child)
    rw [j.flush_safe, follows_empty follows, follows_empty (kept t ht)]

theorem Backed.mutated (backed : Backed T j h) {payload : Bytes} {io : RequestIo} {r : Record}
    (later : ∃ t, T t) (safe : ∀ t, T t → SafeStep t h (.request payload io))
    (asks : requestRecord h.nowRealtimeMs payload = some r)
    (makes : mutation h (.request payload io) = some r)
    (stored : (replayDispatch h.db r.decoded).2 = true)
    (preserves : Preserves h
      (aofAppend io.append { h with db := (replayDispatch h.db r.decoded).1 } r).1) :
    Held T (j.append r)
      (aofAppend io.append { h with db := (replayDispatch h.db r.decoded).1 } r).1 := by
  obtain ⟨u, hu⟩ := later
  obtain ⟨written, fits⟩ := safe u hu
  obtain ⟨room, -⟩ := fits r makes
  obtain ⟨key, value, stamp⟩ := requestRecord_wellFormed asks
  obtain ⟨frame, appended⟩ :=
    aofAppend_frame io.append { h with db := (replayDispatch h.db r.decoded).1 } r
  obtain ⟨live, -, -⟩ := mutated_appended (backed.tracks u hu).enabled written room appended
  have store (t : Int) (ht : T t) :
      Follows t (j.items ++ [r]) .empty (replayDispatch h.db r.decoded).1.cells :=
    (backed.store t ht).trans ((backed.tracks t ht).dispatch ((safe t ht).2 r makes).2
      (requestRecord_stamped asks) stored)
  obtain ⟨createdMs, rs, log⟩ := backed.written
  refine ⟨fun t ht => ?_, backed.stored.append store, createdMs, rs, ?_⟩
  · rw [frame.db]
    exact store t ht
  · rw [live]
    exact (log.append ⟨key, value, room, stamp⟩).more
      (synced_le backed.sound.rewrite preserves frame.aofFd)

theorem Backed.ticked (backed : Backed T j h) (later : ∃ t, T t) {nowMs nowRealtimeMs : Int}
    {io : TickIo} (safe : ∀ t, T t → SafeStep t h (.tick nowMs nowRealtimeMs io))
    (preserves : Preserves h (beforeSleep nowMs nowRealtimeMs io h)) :
    Held T j (beforeSleep nowMs nowRealtimeMs io h) ∨
      (Held T j.flush (beforeSleep nowMs nowRealtimeMs io h) ∧
        Flushed (beforeSleep nowMs nowRealtimeMs io h)) := by
  obtain ⟨u, hu⟩ := later
  obtain ⟨g, ⟨tracks, sound, same, live, aofFd⟩, outcome⟩ := beforeSleep_cases nowMs io h
    (I := fun g => (∀ t, T t → Tracks t g) ∧ Sound g ∧
      (∀ t, T t → settle t g.db.cells = settle t h.db.cells) ∧ g.live = h.live ∧ g.aofFd = h.aofFd)
    ⟨fun t ht => (backed.tracks t ht).retimed (safe t ht).1, backed.sound.retimed, fun _ _ => rfl,
      rfl, rfl⟩
    (fun g key due passed ⟨tracks, sound, same, live, aofFd⟩ => by
      have unclobbered := (safe u hu).2 key due
      have swept (t : Int) (ht : T t) := (tracks t ht).swept (safe t ht).1 unclobbered passed
      exact ⟨fun t ht => (swept t ht).1, sound.swept key _,
        fun t ht => (swept t ht).2.trans (same t ht), live, aofFd⟩)
    (fun g g' q ⟨tracks, sound, same, live, aofFd⟩ =>
      ⟨fun t ht => (tracks t ht).quiet q, sound.quiet q, fun t ht => by rw [q.db, same t ht],
        q.live.trans live, q.aofFd.trans aofFd⟩)
  have inv := backed.sound.rewrite
  generalize beforeSleep nowMs nowRealtimeMs io h = h' at preserves outcome ⊢
  have store (t : Int) (ht : T t) : Follows t j.items .empty g.db.cells :=
    (backed.store t ht).settled (same t ht)
  have settled (fd : h'.aofFd = g.aofFd) (bytes : h'.live = g.live) (db : h'.db = g.db) :
      Held T j h' :=
    backed.settled (bytes.trans live) (synced_le inv preserves (fd.trans aofFd))
      fun t ht => by rw [db, same t ht]
  cases outcome with
  | quiet q => exact Or.inl (settled q.aofFd q.live q.db)
  | started idle eq =>
    exact Or.inl (eq ▸ settled (by rw [eq]; rfl) (by rw [eq]; rfl) (by rw [eq]; rfl))
  | ended busy stopped =>
    exact Or.inl (settled stopped.aofFd (stopped.live sound.rewrite.disk) stopped.db)
  | installed c ino done =>
    have flushed : Flushed h' := preserves.log.resolve_left fun fd => by
      refine (sound.rewrite.disk.temp ino done.temp).2 ?_
      rw [← done.aofFd, fd, aofFd]
    exact Or.inr ⟨installed_held store backed.stored sound tracks done flushed, flushed⟩

/-- What a step does to the journal: it appends a mutation, or puts a new log in place of the old
one, or nothing. -/
theorem step_held (backed : Backed T j h) (later : ∃ t, T t) {e : Event}
    (safe : ∀ t, T t → SafeStep t h e) :
    (∃ r, mutation h e = some r ∧ Held T (j.append r) (step h e)) ∨
      (mutation h e = none ∧
        (Held T j (step h e) ∨ (Held T j.flush (step h e) ∧ Flushed (step h e)))) := by
  have preserves := step_preserves h e
  have out := stepped h e
  generalize step h e = h' at preserves out ⊢
  have inv := backed.sound.rewrite
  cases out with
  | quiet makes q =>
    exact Or.inr ⟨makes, Or.inl (backed.settled q.live (synced_le inv preserves q.aofFd)
      fun t _ => by rw [q.db])⟩
  | @mutated payload io r asks makes stored =>
    exact Or.inl ⟨r, makes, backed.mutated later safe asks makes stored preserves⟩
  | refused r asks makes failed =>
    obtain ⟨cells, ok⟩ := dispatch_cells h.db r
    refine Or.inr ⟨makes, Or.inl (backed.settled rfl (le_refl _) fun t ht => ?_)⟩
    rw [cells, Entry.apply_refused_eq (backed.tracks t ht).consistent.store (ok ▸ failed)]
  | cleaned key makes =>
    exact Or.inr ⟨makes, Or.inl (backed.settled rfl (le_refl _) fun t ht =>
      settle_expired (backed.tracks t ht).clock key)⟩
  | started makes idle => exact Or.inr ⟨makes, Or.inl (backed.settled rfl (le_refl _) fun _ _ => rfl)⟩
  | @ticked nowMs nowRealtimeMs io =>
    exact Or.inr ⟨rfl, backed.ticked later safe preserves⟩
  | @childStepped realtimeMs io c hc =>
    have same := (childStep_spec inv.disk realtimeMs io (inv.progress c hc)).2.1
    exact Or.inr ⟨rfl, Or.inl (backed.settled same (synced_le inv preserves rfl) fun _ _ => rfl)⟩
  | childChanged makes c c' hc same q =>
    exact Or.inr ⟨makes, Or.inl (backed.settled (q.live.trans rfl)
      (synced_le inv preserves q.aofFd) fun t _ => by rw [q.db])⟩

theorem step_backed (backed : Backed T j h) (later : ∃ t, T t) {e : Event}
    (safe : ∀ t, T t → SafeStep t h e) :
    ∃ j', Path Journal.Step j (labels h e) j' ∧ Backed T j' (step h e) := by
  have sound := backed.sound.step e
  have tracks (t : Int) (ht : T t) : Tracks t (step h e) :=
    tracks_step (backed.tracks t ht) backed.sound.rewrite (safe t ht)
  -- The log may be all on the device, whatever the step has done.
  have finish {i : State Record} {ls : List (Label Record)} (path : Path Journal.Step j ls i)
      (held : Held T i (step h e)) : ∃ j', Path Journal.Step j
        (ls ++ if Flushed (step h e) then [.flush] else []) j' ∧ Backed T j' (step h e) := by
    by_cases flushed : Flushed (step h e)
    · rw [if_pos flushed]
      exact ⟨i.flush, path.append (.single (.flush i)), held.flush flushed, sound, tracks⟩
    · rw [if_neg flushed, List.append_nil]
      exact ⟨i, path, held, sound, tracks⟩
  rcases step_held backed later safe with ⟨r, makes, held⟩ | ⟨makes, held | ⟨held, flushed⟩⟩
  · rw [labels, makes]
    exact finish (.single (.append j r)) held
  · rw [labels, makes]
    exact finish (.nil j) held
  · rw [labels, makes, if_pos flushed]
    exact ⟨j.flush, .single (.flush j), held, sound, tracks⟩

theorem run_backed (backed : Backed T j h) (later : ∃ t, T t) {events : List Event}
    (safe : ∀ t, T t → Transition.Along step (SafeStep t) h events) :
    ∃ j', Path Journal.Step j (emitted step labels h events) j' ∧ Backed T j' (run h events) := by
  induction events generalizing j h with
  | nil => exact ⟨j, .nil j, backed⟩
  | cons e events ih =>
    obtain ⟨i, first, next⟩ := step_backed backed later fun t ht => (safe t ht).1
    obtain ⟨j', rest, final⟩ := ih next fun t ht => (safe t ht).2
    exact ⟨j', first.append rest, final⟩

end Step

end ByteKV.Lifetimes
