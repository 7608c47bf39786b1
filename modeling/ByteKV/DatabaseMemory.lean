import ByteKV.ActiveSweep
import ByteKV.TableLayout

/-! db.c in memory. Any calls, one after another, read and free only what is there, answer
as the two tables of Database do, and leave nothing behind once the database is freed. -/
namespace ByteKV.DatabaseMemory
open HashTable (RawHt)
open Database (Db)
open Separation Assn HeapProgram TableMemory TableLayout

/-! The functions of db.c. -/

def dbCreate (malloc : Allocator Ptr Block) (nowMs : Int) : Proc Ptr := do
  let db ← alloc malloc ({} : DbBlock)
  let keyspace ← htCreate malloc .str
  let expires ← htCreate malloc .i64
  store db ({ keyspace, expires, startMs := nowMs } : DbBlock)
  return db

def dbFree (db : Ptr) : Proc Unit := do
  let d ← load DbBlock db
  htFree d.keyspace
  htFree d.expires
  free db

def dbDel (db key : Ptr) : Proc Bool := do
  let d ← load DbBlock db
  let _ ← htDel d.expires key
  htDel d.keyspace key

def dbExpireClean (db key : Ptr) (nowMs : Int) : Proc Bool := do
  let d ← load DbBlock db
  let expireAt ← htGetI64 d.expires key
  if expireAt = null then return false
  else
    let due ← readI64 expireAt
    if nowMs > due then
      let _ ← dbDel db key
      return true
    else return false

def dbGet (db key : Ptr) (nowMs : Int) : Proc Ptr := do
  let cleaned ← dbExpireClean db key nowMs
  if cleaned then return null
  else
    let d ← load DbBlock db
    htGetStr d.keyspace key

def dbSet (malloc : Allocator Ptr Block) (db key value : Ptr) : Proc Bool := do
  let d ← load DbBlock db
  htSetStr malloc d.keyspace key value

def dbSetex (malloc : Allocator Ptr Block) (db key value : Ptr) (expireAt : Int) : Proc Bool := do
  let d ← load DbBlock db
  let ok ← htSetStr malloc d.keyspace key value
  if ok = false then return false
  else if expireAt > 0 then
    let ok ← htSetI64 malloc d.expires key expireAt
    if ok = false then
      let _ ← htDel d.keyspace key
      return false
    else return true
  else return true

def dbPersist (db key : Ptr) : Proc Bool := do
  let d ← load DbBlock db
  htDel d.expires key

def dbKeyExpire (malloc : Allocator Ptr Block) (db key : Ptr) (expireAt : Int) : Proc Bool := do
  if expireAt ≤ 0 then return false
  else
    let d ← load DbBlock db
    let held ← htExists d.keyspace key
    if held = false then return false
    else htSetI64 malloc d.expires key expireAt

def dbGetTtl (db key : Ptr) (nowMs : Int) : Proc Int := do
  let _ ← dbExpireClean db key nowMs
  let d ← load DbBlock db
  let held ← htExists d.keyspace key
  if held = false then return -2
  else
    let expireAt ← htGetI64 d.expires key
    if expireAt = null then return -1
    else
      let due ← readI64 expireAt
      return (due - nowMs).tdiv 1000

/-- Draws until `n` buckets with an entry are picked; `draws` are the answers of
`arc4random_uniform`. -/
def drawPicks (table : Ptr) : (n : Nat) → (draws : List Nat) → Proc (List Nat)
  | 0, _ => return []
  | _ + 1, [] => return []
  | n + 1, idx :: draws => do
    let head ← slot table idx
    if head = null then drawPicks table (n + 1) draws
    else
      let picks ← drawPicks table n draws
      return idx :: picks

def sweepChain (db : Ptr) (nowMs : Int) : Ptr × Nat → Proc Nat := loop fun (e, cleaned) => do
  if e = null then return .inr cleaned
  else
    let b ← load EntryBlock e
    let hit ← dbExpireClean db b.key nowMs
    return .inl (b.next, cleaned + hit.toNat)

def sweepPicks (db : Ptr) (nowMs : Int) : List Nat → (cleaned : Nat) → Proc Nat
  | [], cleaned => return cleaned
  | idx :: picks, cleaned => do
    let d ← load DbBlock db
    let ht ← load HtBlock d.expires
    let head ← slot ht.table idx
    let cleaned ← sweepChain db nowMs (head, cleaned)
    sweepPicks db nowMs picks cleaned

def dbActiveSweep (db : Ptr) (sampleSize : Nat) (nowMs : Int) (draws : List Nat) : Proc Nat := do
  let d ← load DbBlock db
  let ht ← load HtBlock d.expires
  if ht.used = 0 then return 0
  else
    let picks ← drawPicks ht.table (min sampleSize ht.used) draws
    sweepPicks db nowMs picks 0

def readStr (s : Ptr) : Proc (Option Bytes) := do
  if s = null then return none
  else
    let chars ← load Bytes s
    return some chars

/-! The two tables where `db` says they are. -/

def dbAt (p : Ptr) (db : Db) : Assn Ptr Block := ⨆ ks : Ptr, ⨆ ex : Ptr,
  cell p (⟨ks, ex, db.startMs⟩ : DbBlock) * (htAt ks db.keyspace.raw * htAt ex db.expires.raw)

theorem dbAt_sized (p : Ptr) (db : Db) :
    Sized (5 + 3 * db.keyspace.raw.used + 2 * db.expires.raw.used) (dbAt p db) := by
  refine .iSup fun ks => .iSup fun ex => ?_
  have parts := (Sized.pts p (Layout.put (⟨ks, ex, db.startMs⟩ : DbBlock) : Block)).mul
    ((htAt_sized ks db.keyspace.wf.toShape).mul (htAt_sized ex db.expires.wf.toShape))
  have count : 5 + 3 * db.keyspace.raw.used + 2 * db.expires.raw.used =
      1 + (2 + (2 + 1) * db.keyspace.raw.used + (2 + (2 + 0) * db.expires.raw.used)) := by omega
  rwa [count]

section Calls
variable {malloc : Allocator Ptr Block} {p key : Ptr} {db : Db} {k : Bytes} {F : Assn Ptr Block}

theorem open_db {β : Type} {c : Proc β} {R : β → Assn Ptr Block}
    (next : ∀ ks ex, Triple (cell p (⟨ks, ex, db.startMs⟩ : DbBlock) *
      (htAt ks db.keyspace.raw * (htAt ex db.expires.raw * F))) c R) :
    Triple (dbAt p db * F) c R := by
  refine .exists_mul fun ks => .exists_mul fun ex => ?_
  rw [mul_assoc, mul_assoc]
  exact next ks ex

theorem fill_db (db : Db) (ks ex : Ptr) : cell p (⟨ks, ex, db.startMs⟩ : DbBlock) *
    (htAt ks db.keyspace.raw * htAt ex db.expires.raw) ≤ dbAt p db :=
  le_iSup_of_le ks (le_iSup_of_le ex le_rfl)

theorem dbCreate_spec (ample : malloc.Ample) (nowMs : Int) :
    Triple 1 (dbCreate malloc nowMs) fun p => dbAt p (Database.dbCreate nowMs) := by
  refine .alloc ample fun p nonzero => ?_
  refine .call (htCreate_spec (α := Bytes) ample) fun ks => .of_fact_mul fun _ => ?_
  refine .call (htCreate_spec (α := Int) ample) fun ex => .of_fact_mul fun _ => .store (.done ?_)
  calc _ = cell p (⟨ks, ex, nowMs⟩ : DbBlock) *
        (htAt ks (HashTable.htCreate : RawHt Bytes) * htAt ex (HashTable.htCreate : RawHt Int)) := by
        ac_rfl
    _ ≤ _ := fill_db (Database.dbCreate nowMs) ks ex

theorem dbFree_spec : Triple (dbAt p db) (dbFree p) fun _ => 1 := by
  rw [← mul_one (dbAt p db), ← bind_pure (dbFree p)]
  simp only [dbFree, bind_assoc]
  refine open_db fun ks ex => .load ?_
  refine .call (htFree_spec db.keyspace.wf.toShape) fun _ => ?_
  refine .call (htFree_spec db.expires.wf.toShape) fun _ => .free (.done ?_)
  simp only [one_mul, le_rfl]

theorem dbDel_spec : Triple (dbAt p db * cell key k) (dbDel p key) fun ok =>
    fact (ok = (Database.dbDel db k).2) * (dbAt p (Database.dbDel db k).1 * cell key k) := by
  refine open_db fun ks ex => .load ?_
  refine .call (htDel_spec (k := k) db.expires.wf.toShape) fun _ => .of_fact_mul fun _ => ?_
  refine .tail (htDel_spec (k := k) db.keyspace.wf.toShape) fun ok => ?_
  rw [mul_assoc]
  refine mul_le_mul_right ?_ _
  calc _ = cell p (⟨ks, ex, db.startMs⟩ : DbBlock) * (htAt ks (HashTable.htDel db.keyspace.raw k).1 *
        htAt ex (HashTable.htDel db.expires.raw k).1) * cell key k := by ac_rfl
    _ ≤ _ := mul_le_mul_left (fill_db (Database.dbDel db k).1 ks ex) _

theorem within_db {h : Heap Ptr Block} (held : h ∈ within (dbAt p db)) : ∃ ks ex,
    h.lookup p = some (Layout.put (⟨ks, ex, db.startMs⟩ : DbBlock)) ∧
      h ∈ within (htAt ks db.keyspace.raw) ∧ h ∈ within (htAt ex db.expires.raw) := by
  obtain ⟨ks, held⟩ := within_iSup.mp held
  obtain ⟨ex, held⟩ := within_iSup.mp held
  have tables := within_right held
  exact ⟨ks, ex, (within_pts (within_left held)).2, within_left tables, within_right tables⟩

theorem dbExpireClean_run {m : Memory Ptr Block} (held : m.heap ∈ within (dbAt p db))
    (here : m.heap.lookup key = some (Layout.put k)) (nowMs : Int) :
    dbExpireClean p key nowMs m = if ExpiringLog.past nowMs (db.expires.get k) then
      (dbDel p key >>= fun _ => pure true) m else some (.ok (false, m)) := by
  obtain ⟨ks, ex, fields, -, expires⟩ := within_db held
  obtain ⟨r, ran, ⟨absent, missing⟩ | ⟨nonzero, due, found, read⟩⟩ :=
    htGetI64_run db.expires.wf.toShape expires here
  · have get : db.expires.get k = none := missing
    rw [dbExpireClean, bind_run (load_run fields), bind_run ran, if_pos absent, get]
    rfl
  · have get : db.expires.get k = some due := found
    rw [dbExpireClean, bind_run (load_run fields), bind_run ran, if_neg nonzero, bind_run read, get,
      ExpiringLog.past_some]
    by_cases late : nowMs > due
    · rw [if_pos late, if_pos (decide_eq_true late)]
    · rw [if_neg late, if_neg (by simpa using late)]
      rfl

theorem dbExpireClean_spec (nowMs : Int) :
    Triple (dbAt p db * cell key k) (dbExpireClean p key nowMs)
    fun hit => fact (hit = (Database.dbExpireClean db k nowMs).2) *
      (dbAt p (Database.dbExpireClean db k nowMs).1 * cell key k) := by
  have run (m : Memory Ptr Block) (held : m.heap ∈ within (dbAt p db * cell key k)) :=
    dbExpireClean_run (within_left held) (within_pts (within_right held)).2 nowMs
  rw [Database.dbExpireClean, ActiveSweep.dbExpireCleanThrough_eq]
  by_cases late : ExpiringLog.past nowMs (db.expires.get k) = true
  · simp only [if_pos late] at run ⊢
    refine .of_run run (.bind dbDel_spec fun _ => .of_fact fun _ => .done (le_fact_mul rfl le_rfl))
  · simp only [if_neg late] at run ⊢
    exact .of_reads fun m held => ⟨false, run m held, rfl⟩

theorem dbSet_spec (ample : malloc.Ample) {value : Ptr} (b : Bytes) :
    Triple (dbAt p db * (cell key k * cell value b)) (dbSet malloc p key value) fun ok =>
      fact (ok = true) * (dbAt p (Database.dbSet db k b).1 * (cell key k * cell value b)) := by
  refine open_db fun ks ex => .load ?_
  refine .tail (htSetStr_spec (k := k) ample db.keyspace.wf.toShape b) fun ok => ?_
  rw [mul_assoc]
  refine mul_le_mul_right ?_ _
  calc _ = cell p (⟨ks, ex, db.startMs⟩ : DbBlock) * (htAt ks (HashTable.htSet db.keyspace.raw k b) *
        htAt ex db.expires.raw) * (cell key k * cell value b) := by ac_rfl
    _ ≤ _ := mul_le_mul_left (fill_db (Database.dbSet db k b).1 ks ex) _

theorem dbPersist_spec : Triple (dbAt p db * cell key k) (dbPersist p key) fun ok =>
    fact (ok = (Database.dbPersist db k).2) * (dbAt p (Database.dbPersist db k).1 * cell key k) := by
  refine open_db fun ks ex => .load ?_
  refine .tail (htDel_spec (k := k) db.expires.wf.toShape) fun ok => ?_
  rw [mul_assoc]
  refine mul_le_mul_right ?_ _
  calc _ = cell p (⟨ks, ex, db.startMs⟩ : DbBlock) * (htAt ks db.keyspace.raw *
        htAt ex (HashTable.htDel db.expires.raw k).1) * cell key k := by ac_rfl
    _ ≤ _ := mul_le_mul_left (fill_db (Database.dbPersist db k).1 ks ex) _

theorem dbSetex_spec (ample : malloc.Ample) {value : Ptr} (b : Bytes) (expireAt : Int) :
    Triple (dbAt p db * (cell key k * cell value b)) (dbSetex malloc p key value expireAt) fun ok =>
      fact (ok = true) *
        (dbAt p (Database.dbSetex db k b expireAt).1 * (cell key k * cell value b)) := by
  refine open_db fun ks ex => .load ?_
  refine .call (htSetStr_spec (k := k) ample db.keyspace.wf.toShape b) fun ok =>
    .of_fact_mul fun set => ?_
  rw [if_neg (by simp [set])]
  by_cases timed : expireAt > 0
  · rw [if_pos timed]
    refine .call (htSetI64_spec (k := k) ample db.expires.wf.toShape expireAt) fun ok =>
      .of_fact_mul fun set => ?_
    rw [if_neg (by simp [set]), Database.dbSetex, if_pos timed]
    refine .done (le_fact_mul rfl ?_)
    calc _ = cell p (⟨ks, ex, db.startMs⟩ : DbBlock) * (htAt ks (HashTable.htSet db.keyspace.raw k b) *
          htAt ex (HashTable.htSet db.expires.raw k expireAt)) * (cell key k * cell value b) := by ac_rfl
      _ ≤ _ := mul_le_mul_left (fill_db ⟨db.keyspace.set k b, db.expires.set k expireAt, db.startMs⟩
          ks ex) _
  · rw [if_neg timed, Database.dbSetex, if_neg timed]
    refine .done (le_fact_mul rfl ?_)
    calc _ = cell p (⟨ks, ex, db.startMs⟩ : DbBlock) * (htAt ks (HashTable.htSet db.keyspace.raw k b) *
          htAt ex db.expires.raw) * (cell key k * cell value b) := by ac_rfl
      _ ≤ _ := mul_le_mul_left (fill_db ⟨db.keyspace.set k b, db.expires, db.startMs⟩ ks ex) _

theorem dbKeyExpire_spec (ample : malloc.Ample) (expireAt : Int) :
    Triple (dbAt p db * cell key k) (dbKeyExpire malloc p key expireAt) fun ok =>
      fact (ok = (Database.dbKeyExpire db k expireAt).2) *
        (dbAt p (Database.dbKeyExpire db k expireAt).1 * cell key k) := by
  rw [Database.dbKeyExpire, dbKeyExpire]
  by_cases early : expireAt ≤ 0
  · rw [if_pos early, if_pos (Or.inl early)]
    exact .done (le_fact_mul rfl le_rfl)
  · rw [if_neg early]
    refine open_db fun ks ex => .load ?_
    refine .call (htExists_spec (k := k) db.keyspace.wf.toShape) fun held => .of_fact_mul fun eq => ?_
    have same : held = db.keyspace.exists_ k := eq
    by_cases absent : held = false
    · rw [if_pos absent, if_pos (Or.inr (same ▸ absent))]
      refine .done (le_fact_mul rfl ?_)
      calc _ = cell p (⟨ks, ex, db.startMs⟩ : DbBlock) * (htAt ks db.keyspace.raw *
            htAt ex db.expires.raw) * cell key k := by ac_rfl
        _ ≤ _ := mul_le_mul_left (fill_db db ks ex) _
    · rw [if_neg absent, if_neg (by rw [← same]; exact not_or.mpr ⟨early, absent⟩)]
      refine .tail (htSetI64_spec (k := k) ample db.expires.wf.toShape expireAt) fun ok => ?_
      rw [mul_assoc]
      refine mul_le_mul_right ?_ _
      calc _ = cell p (⟨ks, ex, db.startMs⟩ : DbBlock) * (htAt ks db.keyspace.raw *
            htAt ex (HashTable.htSet db.expires.raw k expireAt)) * cell key k := by ac_rfl
        _ ≤ _ := mul_le_mul_left
            (fill_db ⟨db.keyspace, db.expires.set k expireAt, db.startMs⟩ ks ex) _

theorem dbGet_spec (nowMs : Int) : Triple (dbAt p db * cell key k) (dbGet p key nowMs >>= readStr)
    fun v => fact (v = (Database.dbGet db k nowMs).2) *
      (dbAt p (Database.dbGet db k nowMs).1 * cell key k) := by
  simp only [dbGet, bind_assoc]
  refine .bind (dbExpireClean_spec nowMs) fun hit => .of_fact fun eq => ?_
  rw [Database.dbGet]
  obtain ⟨⟨db', cleaned⟩, clean⟩ : ∃ out, Database.dbExpireClean db k nowMs = out := ⟨_, rfl⟩
  rw [clean] at eq ⊢
  obtain rfl : hit = cleaned := eq
  cases hit with
  | true => exact .done (le_fact_mul rfl le_rfl)
  | false =>
    refine .of_reads fun m held => ?_
    obtain ⟨ks, ex, fields, keyspace, -⟩ := within_db (within_left held)
    obtain ⟨r, ran, case⟩ := htGetStr_run db'.keyspace.wf.toShape keyspace
      (within_pts (within_right held)).2
    refine ⟨_, ?_, rfl⟩
    rw [if_neg Bool.false_ne_true, bind_assoc, bind_run (load_run fields), bind_run ran, readStr]
    rcases case with ⟨absent, missing⟩ | ⟨nonzero, b, found, value⟩
    · rw [if_pos absent, pure_run]
      exact congrArg (fun v => some (Except.ok (v, m))) missing.symm
    · rw [if_neg nonzero, bind_run (load_run value), pure_run]
      exact congrArg (fun v => some (Except.ok (v, m))) found.symm

theorem dbGetTtl_spec (nowMs : Int) : Triple (dbAt p db * cell key k) (dbGetTtl p key nowMs)
    fun n => fact (n = (Database.dbGetTtl db k nowMs).2) *
      (dbAt p (Database.dbGetTtl db k nowMs).1 * cell key k) := by
  refine .bind (dbExpireClean_spec nowMs) fun hit => .of_fact fun _ => ?_
  have cleaned : (Database.dbGetTtl db k nowMs).1 = (Database.dbExpireClean db k nowMs).1 := by
    simp only [Database.dbGetTtl]
    split
    · split <;> rfl
    · rfl
  rw [cleaned]
  refine .of_reads fun m held => ⟨_, ?_, rfl⟩
  rw [Database.dbGetTtl]
  obtain ⟨db', clean⟩ : ∃ db', (Database.dbExpireClean db k nowMs).1 = db' := ⟨_, rfl⟩
  rw [clean] at held ⊢
  obtain ⟨ks, ex, fields, keyspace, expires⟩ := within_db (within_left held)
  have here := (within_pts (within_right held)).2
  have stored : htExists ks key m = some (.ok (db'.keyspace.exists_ k, m)) :=
    htExists_run db'.keyspace.wf.toShape keyspace here
  rw [bind_run (load_run fields), bind_run stored]
  cases db'.keyspace.exists_ k with
  | false => rfl
  | true =>
    obtain ⟨r, ran, ⟨absent, missing⟩ | ⟨nonzero, due, found, read⟩⟩ :=
      htGetI64_run db'.expires.wf.toShape expires here
    · have get : db'.expires.get k = none := missing
      rw [if_neg Bool.noConfusion, bind_run ran, if_pos absent, get]
      rfl
    · have get : db'.expires.get k = some due := found
      rw [if_neg Bool.noConfusion, bind_run ran, if_neg nonzero, bind_run read, get]
      rfl

end Calls

end ByteKV.DatabaseMemory
