import ByteKV.StoreInvariant

/-! The two tables of the database, under its own calls and under the replay of log
records at any time: no deadline without its key, none that is not positive, and no
call that touches another key. -/
namespace ByteKV.TwoTables
open Config Database AofRecord StoreInvariant ExpiringLog

/-- The calls of db.h on one key, and `aof_replay_record` on the body of any record that
`aof_serialize` gets into its buffer. -/
inductive DbCall
  | set (key value : Bytes)
  | setex (key value : Bytes) (expireAt : Int)
  | expire (key : Bytes) (expireAt : Int)
  | persist (key : Bytes)
  | del (key : Bytes)
  | get (key : Bytes) (nowMs : Int)
  | getTtl (key : Bytes) (nowMs : Int)
  | replay (r : Record) (fits : (aofSerialize aofRecordMax r).isSome) (nowMs : Int)

def DbCall.key : DbCall → Bytes
  | .set key _ | .setex key _ _ | .expire key _ | .persist key | .del key | .get key _
  | .getTtl key _ => key
  | .replay r _ _ => cstr r.key

/-- The database after one call; none if replay would read behind its buffer. -/
def dbCall (db : Db) : DbCall → Option Db
  | .set key value => some (dbSet db key value).1
  | .setex key value expireAt => some (dbSetex db key value expireAt).1
  | .expire key expireAt => some (dbKeyExpire db key expireAt).1
  | .persist key => some (dbPersist db key).1
  | .del key => some (dbDel db key).1
  | .get key nowMs => some (dbGet db key nowMs).1
  | .getTtl key nowMs => some (dbGetTtl db key nowMs).1
  | .replay r _ nowMs =>
      match aofReplayRecord db nowMs (aofBody r) (aofBody r).length with
      | .done db _ => some db
      | .overrun => none

/-- A call updates the tables as a record of its key does, or clears its key, or
changes nothing. -/
inductive Touches (key : Bytes) (c : Cells Bytes Bytes Int) : Cells Bytes Bytes Int → Prop
  | update (r : Record) (same : r.key = key) : Touches key c (r.entry.apply c).1
  | clear : Touches key c (c.erase key)
  | leave : Touches key c c

theorem touches_expire {key : Bytes} {nowMs : Int} {c : Cells Bytes Bytes Int} :
    Touches key c (if past nowMs (c.due key) then c.erase key else c) := by
  split
  · exact .clear
  · exact .leave

theorem dbCall_touches (db : Db) (call : DbCall) :
    ∃ db', dbCall db call = some db' ∧ Touches call.key db.cells db'.cells := by
  have update (r : Record) : Touches r.key db.cells (replayDispatch db r.decoded).1.cells := by
    rw [(dispatch_cells db r).1]
    exact .update r rfl
  cases call with
  | set key value => exact ⟨_, rfl, update ⟨.set, key, value, 0⟩⟩
  | setex key value expireAt => exact ⟨_, rfl, update ⟨.setex, key, value, expireAt⟩⟩
  | expire key expireAt => exact ⟨_, rfl, update ⟨.expire, key, [], expireAt⟩⟩
  | persist key => exact ⟨_, rfl, update ⟨.persist, key, [], 0⟩⟩
  | del key => exact ⟨_, rfl, update ⟨.del, key, [], 0⟩⟩
  | get key nowMs => exact ⟨_, rfl, dbGet_cells db key nowMs ▸ touches_expire⟩
  | getTtl key nowMs => exact ⟨_, rfl, dbGetTtl_cells db key nowMs ▸ touches_expire⟩
  | replay r fits nowMs =>
    have done := aofReplayRecord_readBack db nowMs (aofSerialize_isSome_iff.mp fits) []
    rw [List.append_nil] at done
    refine ⟨(replayOne nowMs db r.readBack).1, ?_, ?_⟩
    · rw [dbCall, done]
    · rw [replayOne]
      split
      · exact .leave
      · exact update r.readBack

theorem Touches.of_ne {key k : Bytes} {c c' : Cells Bytes Bytes Int} (h : Touches key c c')
    (ne : k ≠ key) : c'.val k = c.val k ∧ c'.due k = c.due k := by
  cases h with
  | update r same => exact r.entry.apply_of_ne c fun eq => ne (eq.trans same)
  | clear => simp [Cells.erase, ne]
  | leave => exact ⟨rfl, rfl⟩

structure Coherent (c : Cells Bytes Bytes Int) : Prop where
  owned : c.Consistent
  positive : ∀ k d, c.due k = some d → 0 < d

theorem Touches.coherent {key : Bytes} {c c' : Cells Bytes Bytes Int} (h : Touches key c c')
    (inv : Coherent c) : Coherent c' := by
  cases h with
  | update r same =>
    refine ⟨r.entry.apply_consistent inv.owned, fun k d due => ?_⟩
    by_cases hk : k = r.key
    · subst hk
      rcases Entry.apply_due_self (e := r.entry) due with old | new
      · exact inv.positive _ d old
      · exact (Record.entry_due new).2
    · exact inv.positive k d ((r.entry.apply_of_ne c hk).2 ▸ due)
  | clear =>
    exact ⟨Cells.erase_consistent inv.owned key,
      fun k d due => inv.positive k d ((erase_sub c key).due k d due)⟩
  | leave => exact inv

def dbRun (db : Db) (calls : List DbCall) : Option Db := calls.foldlM dbCall db

theorem dbRun_coherent {db : Db} (inv : Coherent db.cells) (calls : List DbCall) :
    ∃ db', dbRun db calls = some db' ∧ Coherent db'.cells := by
  induction calls generalizing db with
  | nil => exact ⟨db, rfl, inv⟩
  | cons call calls ih =>
    obtain ⟨next, stepped, touches⟩ := dbCall_touches db call
    obtain ⟨db', rest, last⟩ := ih (touches.coherent inv)
    refine ⟨db', ?_, last⟩
    rw [dbRun, List.foldlM_cons, stepped]
    exact rest

theorem dbCreate_coherent (nowMs : Int) : Coherent (dbCreate nowMs).cells := by
  rw [dbCreate_cells]
  exact ⟨fun _ _ => rfl, by simp [Cells.empty]⟩

theorem dbRun_consistent (nowMs : Int) (calls : List DbCall) :
    ∃ db, dbRun (dbCreate nowMs) calls = some db ∧
      (∀ k, (db.expires.get k).isSome → (db.keyspace.get k).isSome) ∧
      (∀ k expireAt, db.expires.get k = some expireAt → 0 < expireAt) ∧
      ∀ call, ∃ db', dbCall db call = some db' ∧ ∀ k, k ≠ call.key →
        db'.keyspace.get k = db.keyspace.get k ∧ db'.expires.get k = db.expires.get k := by
  obtain ⟨db, ran, inv⟩ := dbRun_coherent (dbCreate_coherent nowMs) calls
  refine ⟨db, ran, fun k due => ?_, inv.positive, fun call => ?_⟩
  · by_contra absent
    have none := inv.owned k (Option.not_isSome_iff_eq_none.mp absent)
    rw [cells_due] at none
    simp [none] at due
  · obtain ⟨db', stepped, touches⟩ := dbCall_touches db call
    exact ⟨db', stepped, fun k ne => touches.of_ne ne⟩

end ByteKV.TwoTables
