import ByteKV.LogTracking

/-! What an append leaves behind when the calls it makes may fail: the bytes of the
log, and how much of it is known to be on the device. -/
namespace ByteKV.Durability
open Config Database FileIo AofRecord ServerState AofAppend ServerRun StepCases
open StoreInvariant LogInvariant Command AofLoad Recovery

/-! Whole records. -/

/-- An error leaves part of the record in the log. -/
def TearsLog (io : AppendIo) (h : Host) (r : Record) : Prop :=
  h.config.aofEnabled = true ∧ r.key.length + r.value.length ≤ aofPayloadMax ∧
    ∃ k, faultAfter io.writes = some k ∧ 0 < k ∧ k < r.bytes.length

theorem bytes_mem_frames (rs : List LogRecord) : ∀ w ∈ rs.map LogRecord.bytes, w ∈ frames := by
  intro w hw
  obtain ⟨r, -, rfl⟩ := List.mem_map.mp hw
  exact r.bytes_mem

theorem image_append_torn_ne (createdMs createdMs' : Int) (rs qs : List LogRecord) {r : LogRecord}
    {k : Nat} (some : 0 < k) (short : k < r.bytes.length) :
    image createdMs rs ++ r.bytes.take k ≠ image createdMs' qs := by
  intro eq
  rw [image, image, List.append_assoc] at eq
  obtain ⟨-, tails⟩ := List.append_inj eq (by simp)
  refine PrefixCode.flatten_append_torn_ne frames_prefixFree (bytes_mem_frames rs)
    (bytes_mem_frames qs) ⟨r.bytes, r.bytes_mem, k, short, rfl⟩ ?_ tails
  intro empty
  have := congrArg List.length empty
  simp only [List.length_take, List.length_nil] at this
  omega

def Logged (io : AppendIo) (h : Host) (r : Record) : Prop :=
  h.config.aofEnabled = true ∧ r.key.length + r.value.length ≤ aofPayloadMax ∧
    Completes io.writes r.bytes.length

instance (outs : List WriteOutcome) (len : Nat) : Decidable (Completes outs len) :=
  match fault : faultAfter outs with
  | none => .isTrue fun k at_ => by rw [fault] at at_; cases at_
  | some k => decidable_of_iff (len ≤ k)
      ⟨fun le _ at_ => Option.some.inj (fault.symm.trans at_) ▸ le, fun all => all k fault⟩

instance (io : AppendIo) (h : Host) (r : Record) : Decidable (Logged io h r) :=
  inferInstanceAs (Decidable (_ ∧ _ ∧ _))

def logRecords (io : AppendIo) (h : Host) (rs : List LogRecord) (r : Record) (sound : WellFormed r) :
    List LogRecord :=
  if logged : Logged io h r then rs ++ [⟨r, sound.1, sound.2.1, logged.2.1, sound.2.2⟩] else rs

/-- Every record of `qs`, and every one that is appended behind them, is handed to replay. -/
def Reached (file : Bytes) (qs more : List LogRecord) (db : Db) (clock : Nat → Int) : Prop :=
  ∀ (junk : Bytes) (io : LoadIo), junk.length = aofRecordMax → io.Ok →
    ∃ out, aofLoad (some (file ++ (more.map LogRecord.bytes).flatten)) db clock junk io =
        .loaded out ∧
      out.handed = (qs ++ more).map fun r => aofBody r.toRecord

/-- No record but the last fails to replay. -/
def Replays (clock : Nat → Int) (db : Db) (rs : List LogRecord) : Prop :=
  (replayRecords clock 0 db rs).tried = rs.length

instance (clock : Nat → Int) (db : Db) (rs : List LogRecord) : Decidable (Replays clock db rs) :=
  inferInstanceAs (Decidable (_ = _))

theorem replayRecords_tried_le (clock : Nat → Int) (n : Nat) (db : Db) (rs : List LogRecord) :
    (replayRecords clock n db rs).tried ≤ rs.length := by
  have count := replayRecords_count_le clock n db rs
  have all := @count_of_whole clock n db rs
  rw [Replayed.tried]
  cases whole : (replayRecords clock n db rs).whole with
  | true => simpa using count
  | false =>
    have short : (replayRecords clock n db rs).count ≠ rs.length := by simp [← all, whole]
    simp only [Bool.not_false, Bool.toNat_true]
    omega

theorem image_injective {createdMs createdMs' : Int} {rs qs : List LogRecord}
    (same : image createdMs rs = image createdMs' qs) : rs = qs := by
  have nonempty : ([] : Bytes) ∉ frames := by
    rintro ⟨body, -, eq⟩
    have := congrArg List.length eq
    simp only [List.length_nil, aofFrame_length] at this
    omega
  obtain ⟨-, records⟩ := List.append_inj same (by simp)
  exact LogRecord.bytes_injective.list_map (PrefixCode.flatten_injective frames_prefixFree nonempty
    (bytes_mem_frames rs) (bytes_mem_frames qs) records)

theorem image_reached_iff (createdMs : Int) (qs more : List LogRecord) (db : Db)
    (clock : Nat → Int) :
    Reached (image createdMs qs) qs more db clock ↔ Replays clock db (qs ++ more) := by
  have load {junk : Bytes} {io : LoadIo} (hjunk : junk.length = aofRecordMax) (hio : io.Ok) :=
    aofLoad_image createdMs (qs ++ more) (Or.inl rfl) db clock hjunk hio
  simp only [List.append_nil, image_append] at load
  constructor
  · intro reached
    obtain ⟨out, loaded, handed⟩ := reached zeroed {} zeroed_length .silent
    have same := LoadResult.loaded.inj ((load zeroed_length .silent).symm.trans loaded)
    rw [← same] at handed
    have len := congrArg List.length handed
    simp only [List.length_map, List.length_take] at len
    have le := replayRecords_tried_le clock 0 db (qs ++ more)
    rw [Replays]
    omega
  · intro replays junk io hjunk hio
    refine ⟨_, load hjunk hio, ?_⟩
    simp only [replays.ge, List.take_of_length_le]

theorem aofAppend_log (h : Host) (createdMs : Int) (rs : List LogRecord)
    (live : h.live = image createdMs rs) (r : Record) (sound : WellFormed r) {io : AppendIo}
    (clean : ¬ TearsLog io h r) :
    (aofAppend io h r).1.live = image createdMs (logRecords io h rs r sound) := by
  rw [logRecords]
  split
  · rename_i logged
    obtain ⟨on, room, full⟩ := logged
    rw [aofAppend_live on (aofSerialize_some room) full, live, image_append, List.map_singleton,
      List.flatten_singleton]
    rfl
  · rename_i unlogged
    by_cases off : h.config.aofEnabled = false ∨ aofPayloadMax < r.key.length + r.value.length
    · rw [aofAppend_unlogged (off.imp_right aofSerialize_none), live]
    · rw [not_or, Bool.not_eq_false, not_lt] at off
      obtain ⟨on, room⟩ := off
      have torn : ¬ Completes io.writes r.bytes.length := fun full => unlogged ⟨on, room, full⟩
      simp only [Completes, not_forall, not_le] at torn
      obtain ⟨k, fault, short⟩ := torn
      have none : k = 0 := by
        by_contra some
        exact clean ⟨on, room, k, fault, Nat.pos_of_ne_zero some, short⟩
      rw [aofAppend_fault on (aofSerialize_some room) fault short, none, List.take_zero]
      exact (Disk.append_data _ _ _).trans ((List.append_nil _).trans live)

theorem aofAppend_torn {h : Host} {createdMs : Int} {rs : List LogRecord}
    (live : h.live = image createdMs rs) {r : Record} (sound : WellFormed r) {io : AppendIo}
    (tears : TearsLog io h r) (createdMs' : Int) (qs : List LogRecord) :
    (aofAppend io h r).1.live ≠ image createdMs' qs := by
  obtain ⟨on, room, k, fault, some, short⟩ := tears
  let record : LogRecord := ⟨r, sound.1, sound.2.1, room, sound.2.2⟩
  have torn : (aofAppend io h r).1.live = image createdMs rs ++ record.bytes.take k := by
    rw [aofAppend_fault on (aofSerialize_some room) fault short, ← live]
    exact Disk.append_data _ _ _
  rw [torn]
  exact image_append_torn_ne createdMs createdMs' rs qs some short

def otherRecord : LogRecord := recordOf .set "x" "y" 0 (by decide)

/-- The first SET gets five bytes into the log, the second one all of its record. -/
def tornSets : List Event :=
  [.request (ascii "SET k v") { append := { writes := [.wrote 5, .error] } },
    .request (ascii "SET x y") {}]

/-- The whole record is at the end of the log, and the log is on the device. -/
structure Durable (before after : Host) (r : Record) : Prop where
  written : after.live = before.live ++ r.bytes
  flushed : after.disk.synced after.aofFd = after.live.length

instance (before after : Host) (r : Record) : Decidable (Durable before after r) :=
  decidable_of_iff (after.live = before.live ++ r.bytes ∧
      after.disk.synced after.aofFd = after.live.length)
    ⟨fun h => ⟨h.1, h.2⟩, fun h => ⟨h.written, h.flushed⟩⟩

theorem aofAppend_durable_iff {h : Host} {io : AppendIo} {r : Record}
    (on : h.config.aofEnabled = true) (always : h.config.aofPolicy = .always)
    (room : r.key.length + r.value.length ≤ aofPayloadMax) :
    Durable h (aofAppend io h r).1 r ↔
      Completes io.writes r.bytes.length ∧ io.flushed = true := by
  have fits : aofSerialize aofRecordMax r = some r.bytes := aofSerialize_some room
  have nonempty : 0 < r.bytes.length := by
    simp only [Record.bytes, aofFrame_length]
    omega
  by_cases full : Completes io.writes r.bytes.length
  · have live := aofAppend_live on fits full
    obtain ⟨frame, disk, -⟩ := writtenWhole_spec io h r r.bytes
    have fsync := aofMaybeFsyncAlways_frame (writtenWhole io h r r.bytes) io.flushed
    have policy : (writtenWhole io h r r.bytes).config.aofPolicy = .always :=
      (congrArg ServerConfig.aofPolicy frame.config).trans always
    have synced : (aofAppend io h r).1.disk.synced (aofAppend io h r).1.aofFd =
        if io.flushed then (h.live ++ r.bytes).length else h.disk.synced h.aofFd := by
      rw [aofAppend_of_completes on fits full, (frame.trans fsync).aofFd,
        aofMaybeFsyncAlways_disk, disk]
      cases io.flushed <;> simp [policy, frame.aofFd, Host.live]
    constructor
    · rintro ⟨-, flushed⟩
      refine ⟨full, ?_⟩
      by_contra unflushed
      rw [synced, if_neg unflushed, live, List.length_append] at flushed
      have := h.disk.synced_le h.aofFd
      rw [Host.live] at flushed
      omega
    · rintro ⟨-, flushed⟩
      exact ⟨live, by rw [synced, if_pos flushed, live]⟩
  · refine ⟨fun durable => ?_, fun ok => absurd ok.1 full⟩
    simp only [Completes, not_forall, not_le] at full
    obtain ⟨k, fault, short⟩ := full
    have torn : (aofAppend io h r).1.live = h.live ++ r.bytes.take k := by
      rw [aofAppend_fault on fits fault short]
      exact Disk.append_data _ _ _
    have same := congrArg List.length (torn.symm.trans durable.written)
    simp only [List.length_append, List.length_take] at same
    omega

theorem mutation_answered {h : Host} {payload : Bytes} {io : RequestIo} {r : Record}
    (makes : mutation h (.request payload io) = some r) :
    (commandExecute io h payload msgMax).2 = ascii "+OK\n" :=
  (mutation_response (mutation_asks makes)).mpr (accepted_iff.mpr (mutation_iff.mp makes).2)

/-- The handlers answer "+OK" whatever became of the log; the record is durable exactly
when no write failed before its last byte and the fsync succeeded. -/
theorem acknowledged_durable_iff {config : ServerConfig} {disk : Disk} {bootIo : BootIo}
    {nowMs nowRealtimeMs realtimeMs : Int} {h : Host} (enabled : config.aofEnabled = true)
    (always : config.aofPolicy = .always)
    (boot : initServer config disk nowMs nowRealtimeMs realtimeMs bootIo = some h)
    (events : List Event) (payload : Bytes) (io : RequestIo) (r : Record)
    (makes : mutation (run h events) (.request payload io) = some r)
    (room : r.key.length + r.value.length ≤ aofPayloadMax) :
    (commandExecute io (run h events) payload msgMax).2 = ascii "+OK\n" ∧
      (Durable (run h events) (step (run h events) (.request payload io)) r ↔
        Completes io.append.writes r.bytes.length ∧ io.append.flushed = true) := by
  have same : (run h events).config = config :=
    (RewriteInvariant.config_run h events).trans (RewriteInvariant.initServer_spec boot).1.config
  refine ⟨mutation_answered makes, ?_⟩
  rw [step_mutated makes]
  let stored : Host :=
    { run h events with db := (replayDispatch (run h events).db r.decoded).1 }
  have on : stored.config.aofEnabled = true := same.symm ▸ enabled
  have policy : stored.config.aofPolicy = .always := same.symm ▸ always
  rw [← aofAppend_durable_iff on policy room]
  exact ⟨fun d => ⟨d.written, d.flushed⟩, fun d => ⟨d.written, d.flushed⟩⟩

theorem acknowledged_durable_iff_set :
    Durable (firstHost {}) (step (firstHost {}) (.request (ascii "SET k v") {}))
      setRecord.toRecord := by
  refine (acknowledged_durable_iff rfl rfl (firstHost_boot {}) [] (ascii "SET k v") {}
    setRecord.toRecord (by decide) (by decide)).2.mpr ⟨fun k fault => ?_, rfl⟩
  simp [faultAfter] at fault

/-- "+OK" for a record of which nothing was written, and for one that was not flushed. -/
theorem acknowledged_undurable :
    (commandExecute { append := { writes := [.error] } } (firstHost {}) (ascii "SET k v") msgMax).2 =
        ascii "+OK\n" ∧
      ¬ Durable (firstHost {}) (step (firstHost {})
        (.request (ascii "SET k v") { append := { writes := [.error] } })) setRecord.toRecord ∧
      (commandExecute { append := { flushed := false } } (firstHost {}) (ascii "SET k v") msgMax).2 =
        ascii "+OK\n" ∧
      ¬ Durable (firstHost {}) (step (firstHost {})
        (.request (ascii "SET k v") { append := { flushed := false } })) setRecord.toRecord := by
  decide +kernel

end ByteKV.Durability
