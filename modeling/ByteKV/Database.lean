import ByteKV.HashMap
import ByteKV.ExpiringLog

/-! The two-table database of db.c. Status flags are false for `EXIT_FAILURE`, and
allocations succeed. Every operation is then read as an update of an expiring
map, which is all that the persistence layer needs to know about the tables. -/
namespace ByteKV.Database
open HashTable ExpiringLog

structure Db where
  keyspace : Ht Bytes
  expires : Ht Int
  startMs : Int

def dbCreate (nowMs : Int) : Db := ⟨Ht.create, Ht.create, nowMs⟩

/-- `db_del` on a key pointer that reads as `key` until the expires entry is
deleted and as `released` afterwards: the two differ only for a pointer into
that entry, which the first deletion frees. -/
def dbDelThrough (db : Db) (key released : Bytes) : Db × Bool :=
  let db := { db with expires := (db.expires.del key).1 }
  ({ db with keyspace := (db.keyspace.del released).1 }, (db.keyspace.del released).2)

def dbDel (db : Db) (key : Bytes) : Db × Bool := dbDelThrough db key key

def dbExpireCleanThrough (db : Db) (key released : Bytes) (nowMs : Int) : Db × Bool :=
  match db.expires.get key with
  | some expireAt => if nowMs > expireAt then ((dbDelThrough db key released).1, true) else (db, false)
  | none => (db, false)

def dbExpireClean (db : Db) (key : Bytes) (nowMs : Int) : Db × Bool :=
  dbExpireCleanThrough db key key nowMs

def dbGet (db : Db) (key : Bytes) (nowMs : Int) : Db × Option Bytes :=
  match dbExpireClean db key nowMs with
  | (db, true) => (db, none)
  | (db, false) => (db, db.keyspace.get key)

def dbSet (db : Db) (key value : Bytes) : Db × Bool :=
  ({ db with keyspace := db.keyspace.set key value }, true)

def dbSetex (db : Db) (key value : Bytes) (expireAt : Int) : Db × Bool :=
  let db := { db with keyspace := db.keyspace.set key value }
  if expireAt > 0 then ({ db with expires := db.expires.set key expireAt }, true) else (db, true)

def dbPersist (db : Db) (key : Bytes) : Db × Bool :=
  ({ db with expires := (db.expires.del key).1 }, (db.expires.del key).2)

def dbKeyExpire (db : Db) (key : Bytes) (expireAt : Int) : Db × Bool :=
  if expireAt ≤ 0 ∨ db.keyspace.exists_ key = false then (db, false)
  else ({ db with expires := db.expires.set key expireAt }, true)

/-- -1: no TTL, -2: no such key. -/
def dbGetTtl (db : Db) (key : Bytes) (nowMs : Int) : Db × Int :=
  let db := (dbExpireClean db key nowMs).1
  if db.keyspace.exists_ key then
    match db.expires.get key with
    | some expireAt => (db, (expireAt - nowMs).tdiv 1000)
    | none => (db, -1)
  else (db, -2)

/-- Draws until `n` non-empty buckets are picked. -/
def drawPicks (expires : Ht Int) : (n : Nat) → (draws : List Nat) → List Nat
  | 0, _ => []
  | _ + 1, [] => []
  | n + 1, idx :: draws =>
      if expires.getBucket idx = [] then drawPicks expires (n + 1) draws
      else idx :: drawPicks expires n draws

/-- The walk of one picked chain; `released` is what a freed key reads as. -/
def sweepChain (released : Bytes → Bytes) (nowMs : Int) :
    List (HtEntry Int) → Db × Nat → Db × Nat
  | [], acc => acc
  | e :: next, (db, cleaned) =>
      let (db, hit) := dbExpireCleanThrough db e.key (released e.key) nowMs
      sweepChain released nowMs next (db, cleaned + hit.toNat)

def sweepPicks (released : Bytes → Bytes) (nowMs : Int) : List Nat → Db × Nat → Db × Nat
  | [], acc => acc
  | idx :: picks, acc =>
      sweepPicks released nowMs picks
        (sweepChain released nowMs (acc.1.expires.getBucket idx) acc)

def dbActiveSweep (db : Db) (sampleSize : Nat) (nowMs : Int) (draws : List Nat)
    (released : Bytes → Bytes) : Db × Nat :=
  if db.expires.raw.used = 0 then (db, 0)
  else
    let sampleSize := min sampleSize db.expires.raw.used
    sweepPicks released nowMs (drawPicks db.expires sampleSize draws) (db, 0)

/-! The database as an expiring map. -/

def Db.cells (db : Db) : Cells Bytes Bytes Int := ⟨db.keyspace.get, db.expires.get⟩

@[simp] theorem cells_val (db : Db) : db.cells.val = db.keyspace.get := rfl

@[simp] theorem cells_due (db : Db) : db.cells.due = db.expires.get := rfl

@[simp] theorem dbCreate_cells (nowMs : Int) : (dbCreate nowMs).cells = .empty := by
  ext <;> simp [dbCreate, Cells.empty]

def setOp (value : Bytes) : Op Bytes Int := .put value

def setexOp (value : Bytes) (expireAt : Int) : Op Bytes Int :=
  if expireAt > 0 then .putTill value expireAt else .put value

def expireOp (expireAt : Int) : Op Bytes Int :=
  if expireAt > 0 then .till expireAt else .refuse

theorem dbSet_cells (db : Db) (key value : Bytes) :
    ((dbSet db key value).1.cells, (dbSet db key value).2) =
      (setOp value).apply key db.cells := by
  simp only [dbSet, setOp, Op.apply, Prod.mk.injEq, and_true]
  ext1 <;> funext k <;> simp [Function.update_apply]

theorem dbSetex_cells (db : Db) (key value : Bytes) (expireAt : Int) :
    ((dbSetex db key value expireAt).1.cells, (dbSetex db key value expireAt).2) =
      (setexOp value expireAt).apply key db.cells := by
  by_cases h : expireAt > 0
  all_goals
    simp only [dbSetex, setexOp, Op.apply, h, if_true, if_false, Prod.mk.injEq, and_true]
    ext1 <;> funext k <;> simp [Function.update_apply]

theorem dbPersist_cells (db : Db) (key : Bytes) :
    ((dbPersist db key).1.cells, (dbPersist db key).2) = Op.keep.apply key db.cells := by
  simp only [dbPersist, Op.apply, Prod.mk.injEq]
  refine ⟨?_, by simp⟩
  ext1 <;> funext k <;> simp [Function.update_apply]

theorem dbKeyExpire_cells (db : Db) (key : Bytes) (expireAt : Int) :
    ((dbKeyExpire db key expireAt).1.cells, (dbKeyExpire db key expireAt).2) =
      (expireOp expireAt).apply key db.cells := by
  by_cases h : expireAt > 0
  · have pos : ¬ expireAt ≤ 0 := by omega
    by_cases held : (db.keyspace.get key).isSome
    · simp only [dbKeyExpire, expireOp, Op.apply, h, pos, held, Ht.exists_eq, cells_val, if_true,
        Bool.true_eq_false, or_self, if_false, Prod.mk.injEq, and_true]
      ext1 <;> funext k <;> simp [Function.update_apply]
    · simp [dbKeyExpire, expireOp, Op.apply, h, held]
  · have neg : expireAt ≤ 0 := by omega
    simp [dbKeyExpire, expireOp, Op.apply, h, neg]

theorem dbDel_cells (db : Db) (key : Bytes) :
    ((dbDel db key).1.cells, (dbDel db key).2) = Op.drop.apply key db.cells := by
  simp only [dbDel, dbDelThrough, Op.apply, Prod.mk.injEq]
  refine ⟨?_, by simp⟩
  ext1 <;> funext k <;> simp [Function.update_apply]

theorem dbDelThrough_cells (db : Db) (key released : Bytes) :
    (∀ k v, (dbDelThrough db key released).1.cells.val k = some v → db.cells.val k = some v) ∧
      ∀ k d, (dbDelThrough db key released).1.cells.due k = some d → db.cells.due k = some d := by
  constructor
  · intro k v hv
    by_cases hk : k = released <;> simp_all [dbDelThrough]
  · intro k d hd
    by_cases hk : k = key <;> simp_all [dbDelThrough]

theorem dbDelThrough_self_cells (db : Db) (key : Bytes) :
    (dbDelThrough db key key).1.cells = db.cells.erase key := by
  rw [Cells.erase]
  ext1 <;> funext k <;> simp [dbDelThrough, Function.update_apply]

theorem dbExpireClean_cells (db : Db) (key : Bytes) (nowMs : Int) :
    (dbExpireClean db key nowMs).2 = past nowMs (db.cells.due key) ∧
      (dbExpireClean db key nowMs).1.cells =
        if past nowMs (db.cells.due key) then db.cells.erase key else db.cells := by
  rcases Option.eq_none_or_eq_some (db.expires.get key) with hd | ⟨expireAt, hd⟩
  · simp [dbExpireClean, dbExpireCleanThrough, hd]
  · by_cases h : nowMs > expireAt
    · simp only [dbExpireClean, dbExpireCleanThrough, cells_due, hd, h, if_true, past_some,
        decide_true, true_and]
      exact dbDelThrough_self_cells db key
    · simp [dbExpireClean, dbExpireCleanThrough, hd, h]

theorem dbGet_value (db : Db) (key : Bytes) (nowMs : Int) :
    (dbGet db key nowMs).2 = (settle nowMs db.cells).val key := by
  obtain ⟨hit, cells⟩ := dbExpireClean_cells db key nowMs
  rw [dbGet]
  rcases hc : dbExpireClean db key nowMs with ⟨db', _ | _⟩
  · rw [hc] at hit cells
    have live : past nowMs (db.cells.due key) = false := hit.symm
    rw [live] at cells
    have same := congrFun (congrArg Cells.val cells) key
    rw [cells_due] at live
    simpa [settle, live] using same
  · rw [hc] at hit
    have dead : past nowMs (db.expires.get key) = true := hit.symm
    simp [settle, dead]

theorem dbGet_cells (db : Db) (key : Bytes) (nowMs : Int) :
    (dbGet db key nowMs).1.cells =
      if past nowMs (db.cells.due key) then db.cells.erase key else db.cells := by
  have cells := (dbExpireClean_cells db key nowMs).2
  rw [dbGet]
  rcases hc : dbExpireClean db key nowMs with ⟨db', _ | _⟩ <;> simpa [hc] using cells

theorem dbGetTtl_cells (db : Db) (key : Bytes) (nowMs : Int) :
    (dbGetTtl db key nowMs).1.cells =
      if past nowMs (db.cells.due key) then db.cells.erase key else db.cells := by
  rw [← (dbExpireClean_cells db key nowMs).2]
  simp only [dbGetTtl]
  split
  · split <;> rfl
  · rfl

theorem dbGetTtl_value (db : Db) (key : Bytes) (nowMs : Int) :
    (dbGetTtl db key nowMs).2 =
      match (settle nowMs db.cells).val key, (settle nowMs db.cells).due key with
      | none, _ => -2
      | some _, none => -1
      | some _, some expireAt => (expireAt - nowMs).tdiv 1000 := by
  have cells := (dbExpireClean_cells db key nowMs).2
  have hv := congrFun (congrArg Cells.val cells) key
  have hd := congrFun (congrArg Cells.due cells) key
  rw [cells_due, cells_val] at hv
  rw [cells_due, cells_due] at hd
  simp only [dbGetTtl, Ht.exists_eq]
  by_cases dead : past nowMs (db.expires.get key)
  · rw [if_pos dead] at hv
    simp [hv, dead, Cells.erase, settle]
  · rw [if_neg dead] at hv hd
    have sv : (settle nowMs db.cells).val key = db.keyspace.get key := by simp [settle, dead]
    have sd : (settle nowMs db.cells).due key = db.expires.get key := by simp [settle, dead]
    rw [hv, hd, sv, sd, cells_val, cells_due]
    cases db.keyspace.get key with
    | none => rfl
    | some v =>
      cases db.expires.get key <;> rfl

/-! The sweep deletes keys whose deadline has passed, and does nothing else. -/

section Sweep
variable {released : Bytes → Bytes} {nowMs : Int} {I : Db → Prop}

theorem sweepChain_induct
    (step : ∀ db key, past nowMs (db.cells.due key) → I db →
      I (dbDelThrough db key (released key)).1)
    (chain : List (HtEntry Int)) (acc : Db × Nat) (start : I acc.1) :
    I (sweepChain released nowMs chain acc).1 := by
  induction chain generalizing acc with
  | nil => exact start
  | cons e next ih =>
    refine ih _ ?_
    change I (dbExpireCleanThrough acc.1 e.key (released e.key) nowMs).1
    unfold dbExpireCleanThrough
    split
    · rename_i expireAt due
      split
      · exact step _ _ (by simpa [due] using ‹nowMs > expireAt›) start
      · exact start
    · exact start

theorem dbActiveSweep_induct
    (step : ∀ db key, past nowMs (db.cells.due key) → I db →
      I (dbDelThrough db key (released key)).1)
    (db : Db) (sampleSize : Nat) (draws : List Nat) (start : I db) :
    I (dbActiveSweep db sampleSize nowMs draws released).1 := by
  have picks : ∀ (picks : List Nat) (acc : Db × Nat), I acc.1 →
      I (sweepPicks released nowMs picks acc).1 := by
    intro picks
    induction picks with
    | nil => exact fun acc h => h
    | cons idx picks ih => exact fun acc h => ih _ (sweepChain_induct step _ acc h)
  simp only [dbActiveSweep]
  split
  · exact start
  · exact picks _ _ start

end Sweep

end ByteKV.Database
