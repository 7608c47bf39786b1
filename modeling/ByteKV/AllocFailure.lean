import ByteKV.HeapTable

/-! Writes to the database while allocations fail. Some failures are refused, some are
not noticed, and the rollback of SETEX deletes what it should put back. -/
namespace ByteKV.AllocFailure
open HashTable Database ExpiringLog HeapTable

variable {α ν : Type}

/-! One call of `ht_set_str` or `ht_set_i64`. -/

def Refused (io : SetIo) (ht : Ht α) (key : Bytes) : Prop := ht.get key = none ∧ io.entry = false

def Stored (io : SetIo) (ht : Ht α) (key : Bytes) : Prop :=
  (ht.get key).isSome ∨ io.entry = true ∧ io.key = true ∧ (Grows ht.raw → io.table = true)

instance (io : SetIo) (ht : Ht α) (key : Bytes) : Decidable (Refused io ht key) :=
  inferInstanceAs (Decidable (_ ∧ _))

instance (io : SetIo) (ht : Ht α) (key : Bytes) : Decidable (Stored io ht key) :=
  inferInstanceAs (Decidable (_ ∨ _))

theorem Refused.not_stored {io : SetIo} {ht : Ht α} {key : Bytes} (refused : Refused io ht key) :
    ¬ Stored io ht key := by
  rintro (held | ⟨entry, -⟩)
  · simp [refused.1] at held
  · simp [refused.2] at entry

/-- Everything a call can come to; behind one that nobody notices, the next walk to the key
crashes. -/
inductive SetOutcome (io : SetIo) (f : Bytes → α → ν) (ht : Ht α) (key : Bytes) (v : ν) (a : α) :
    Option (HeapHt ν × Bool) → Prop
  | refused (refused : Refused io ht key) :
      SetOutcome io f ht key v a (some (imageHt f ht.raw, false))
  | stored (stored : Stored io ht key) :
      SetOutcome io f ht key v a (some (imageHt (put f key v) (ht.set key a).raw, true))
  | crashed (unrefused : ¬ Refused io ht key) (unstored : ¬ Stored io ht key) :
      SetOutcome io f ht key v a none
  | keyless (unrefused : ¬ Refused io ht key) (unstored : ¬ Stored io ht key) (t : HeapHt ν)
      (del : htDel t key = none) : SetOutcome io f ht key v a (some (t, true))

theorem htSet_outcome (io : SetIo) (f : Bytes → α → ν) (ht : Ht α) (key : Bytes) (v : ν) (a : α) :
    SetOutcome io f ht key v a (htSet io (imageHt f ht.raw) key v) := by
  have shape := ht.wf.toShape
  cases found : HashTable.htFind ht.raw key with
  | some e =>
    have stored : Stored io ht key := Or.inl (by simp [Ht.get, htGet, found])
    rw [htSet_found shape (by simp [found]) io v a]
    exact .stored stored
  | none =>
    have new : ht.get key = none := by simp [Ht.get, htGet, found]
    cases entry : io.entry with
    | false =>
      rw [htSet_refused found entry]
      exact .refused ⟨new, entry⟩
    | true =>
      have unrefused : ¬ Refused io ht key := fun refused => by simp [refused.2] at entry
      by_cases copied : io.key = true
      · by_cases table : Grows ht.raw → io.table = true
        · rw [htSet_new found shape entry copied table v a]
          exact .stored (Or.inr ⟨entry, copied, table⟩)
        · have unstored : ¬ Stored io ht key := by
            rintro (held | ⟨-, -, grown⟩)
            · simp [new] at held
            · exact table grown
          rw [Classical.not_imp, Bool.not_eq_true] at table
          rw [htSet_tableless shape found entry table.1 table.2]
          exact .crashed unrefused unstored
      · have unstored : ¬ Stored io ht key := by
          rintro (held | ⟨-, yes, -⟩)
          · simp [new] at held
          · exact copied yes
        rcases htSet_keyless (f := f) shape found entry (by simpa using copied) v
          with none | ⟨t, eq, del⟩
        · rw [none]
          exact .crashed unrefused unstored
        · rw [eq]
          exact .keyless unrefused unstored t del

/-! Tables that are whole. -/

theorem lookup_image (f : Bytes → α → ν) (ht : Ht α) (k : Bytes) :
    ((imageHt f ht.raw).table.bind fun table =>
        chainFind k (table.getD ((imageHt f ht.raw).bucketOf k) [])).map (·.map (·.val)) =
      some ((ht.get k).map (f k)) := by
  have walk := chainFind_image (f := f) k (ht.raw.chain (ht.raw.bucketOf k))
  rw [RawHt.chain, ← image_getD] at walk
  change (chainFind k ((ht.raw.table.map (List.map (image f))).getD (ht.raw.bucketOf k) [])).map _ = _
  rw [walk, Option.map_some, ← RawHt.chain, Ht.get, htGet, htFind]
  cases found : HashTable.chainFind k (ht.raw.chain (ht.raw.bucketOf k)) with
  | none => rfl
  | some e =>
    have key := (chainFind_key found).2
    simp [image, key]

theorem imageHt_get {f g : Bytes → α → ν} {ht ht' : Ht α}
    (same : imageHt f ht.raw = imageHt g ht'.raw) (k : Bytes) :
    (ht.get k).map (f k) = (ht'.get k).map (g k) := by
  have left := lookup_image f ht k
  rw [same, lookup_image g ht' k] at left
  exact (Option.some.inj left).symm

theorem del_put {f : Bytes → α → ν} (ht : Ht α) (key : Bytes) (v : ν) (a : α) :
    htDel (imageHt (put f key v) (ht.set key a).raw) key =
      some (imageHt f ((ht.set key a).del key).1.raw, true) := by
  rw [htDel_image]
  have status : (HashTable.htDel (ht.set key a).raw key).2 = true := by
    have := (ht.set key a).del_status key
    rw [Ht.get_set, if_pos rfl] at this
    exact this
  rw [status]
  refine congrArg (fun t => some (t, true)) (imageHt_congr fun e mem => ?_)
  have held : ((ht.set key a).del key).1.get e.key = some e.val :=
    ((ht.set key a).del key).1.mem_entries_iff.mp mem
  refine if_neg fun eq => ?_
  simp [eq] at held

/-! The database. -/

def storedStr : Bytes → Bytes → Option Bytes := fun _ value => some value

def storedI64 : Bytes → Int → Int := fun _ expireAt => expireAt

def heapOf (db : Db) : HeapDb := ⟨imageHt storedStr db.keyspace.raw, imageHt storedI64 db.expires.raw⟩

/-- The call returns success with the map updated, or failure with the map as it was; in
both cases the tables are whole, and satisfy their invariants. -/
def Atomic (db : Db) (key : Bytes) (op : Op Bytes Int) (result : Option (HeapDb × Bool)) : Prop :=
  ∃ after ok, result = some (heapOf after, ok) ∧
    if ok then (after.cells, true) = op.apply key db.cells else after.cells = db.cells

theorem Atomic.not_crashed {db : Db} {key : Bytes} {op : Op Bytes Int} :
    ¬ Atomic db key op none := by
  rintro ⟨after, ok, eq, -⟩
  cases eq

theorem Atomic.not_keyless {db : Db} {key k : Bytes} {op : Op Bytes Int}
    {keyspace : HeapHt (Option Bytes)} {expires : HeapHt Int} {ok : Bool}
    (del : htDel keyspace k = none ∨ htDel expires k = none) :
    ¬ Atomic db key op (some (⟨keyspace, expires⟩, ok)) := by
  rintro ⟨after, _, eq, -⟩
  simp only [heapOf, Option.some.injEq, Prod.mk.injEq, HeapDb.mk.injEq] at eq
  rcases del with del | del
  · rw [eq.1.1, htDel_image] at del
    cases del
  · rw [eq.1.2, htDel_image] at del
    cases del

theorem Atomic.not_valueless {db : Db} {key k value : Bytes} {op : Op Bytes Int} {ht : Ht Bytes}
    {expires : HeapHt Int} {ok : Bool} :
    ¬ Atomic db key op
      (some (⟨imageHt (put storedStr k none) (ht.set k value).raw, expires⟩, ok)) := by
  rintro ⟨after, _, eq, -⟩
  simp only [heapOf, Option.some.injEq, Prod.mk.injEq, HeapDb.mk.injEq] at eq
  have at_key := imageHt_get eq.1.1 k
  rw [Ht.get_set, if_pos rfl, Option.map_some, put, if_pos rfl] at at_key
  cases held : after.keyspace.get k with
  | none => simp [held] at at_key
  | some v => simp [held, storedStr] at at_key

theorem atomic_refused (db : Db) (key : Bytes) (op : Op Bytes Int) :
    Atomic db key op (some (heapOf db, false)) := ⟨db, false, rfl, rfl⟩

def SetSafe (io : SetIo) (db : Db) (key : Bytes) : Prop :=
  Refused io db.keyspace key ∨ Stored io db.keyspace key ∧ io.value = true

instance (io : SetIo) (db : Db) (key : Bytes) : Decidable (SetSafe io db key) :=
  inferInstanceAs (Decidable (_ ∨ _))

theorem image_put_str (ht : Ht Bytes) (key value : Bytes) :
    imageHt (put storedStr key (some value)) (ht.set key value).raw =
      imageHt storedStr (ht.set key value).raw := by
  refine imageHt_congr fun e mem => ?_
  have held : (ht.set key value).get e.key = some e.val := (ht.set key value).mem_entries_iff.mp mem
  unfold put
  split
  · rename_i same
    rw [Ht.get_set, if_pos same] at held
    exact held
  · rfl

theorem image_put_i64 (ht : Ht Int) (key : Bytes) (expireAt : Int) :
    imageHt (put storedI64 key expireAt) (ht.set key expireAt).raw =
      imageHt storedI64 (ht.set key expireAt).raw := by
  refine imageHt_congr fun e mem => ?_
  have held : (ht.set key expireAt).get e.key = some e.val :=
    (ht.set key expireAt).mem_entries_iff.mp mem
  unfold put
  split
  · rename_i same
    rw [Ht.get_set, if_pos same] at held
    exact Option.some.inj held
  · rfl

theorem dbSet_atomic (db : Db) (key value : Bytes) (io : SetIo) :
    Atomic db key (setOp value) (HeapTable.dbSet io (heapOf db) key value) ↔ SetSafe io db key := by
  have out := htSet_outcome io storedStr db.keyspace key (if io.value then some value else none) value
  unfold HeapTable.dbSet htSetStr SetSafe
  change Atomic db key _ ((htSet io (imageHt storedStr db.keyspace.raw) key _).map _) ↔ _
  generalize htSet io (imageHt storedStr db.keyspace.raw) key
    (if io.value then some value else none) = result at out ⊢
  cases out with
  | refused refused => exact iff_of_true (atomic_refused db key _) (Or.inl refused)
  | stored stored =>
    have unrefused := mt Refused.not_stored (not_not.mpr stored)
    simp only [unrefused, stored, false_or, true_and, Option.map_some]
    cases copied : io.value with
    | false => exact iff_of_false Atomic.not_valueless (by simp)
    | true =>
      refine iff_of_true ⟨(Database.dbSet db key value).1, true, ?_, (dbSet_cells db key value)⟩ rfl
      rw [if_pos rfl, image_put_str]
      rfl
  | crashed unrefused unstored =>
    exact iff_of_false Atomic.not_crashed (by simp [unrefused, unstored])
  | keyless unrefused unstored t del =>
    exact iff_of_false (Atomic.not_keyless (Or.inl del)) (by simp [unrefused, unstored])

/-- What it takes for SETEX: a failure of the second table is put right only where the key
was new to the first. -/
def SetexSafe (io io' : SetIo) (db : Db) (key : Bytes) (expireAt : Int) : Prop :=
  if expireAt > 0 then
    Refused io db.keyspace key ∨ Stored io db.keyspace key ∧
      (Stored io' db.expires key ∧ io.value = true ∨
        Refused io' db.expires key ∧ db.keyspace.get key = none)
  else SetSafe io db key

instance (io io' : SetIo) (db : Db) (key : Bytes) (expireAt : Int) :
    Decidable (SetexSafe io io' db key expireAt) := by
  unfold SetexSafe
  infer_instance

theorem rollback_atomic (db : Db) (key value : Bytes) (op : Op Bytes Int) :
    Atomic db key op (some (⟨imageHt storedStr ((db.keyspace.set key value).del key).1.raw,
      imageHt storedI64 db.expires.raw⟩, false)) ↔ db.keyspace.get key = none := by
  constructor
  · rintro ⟨after, ok, eq, restored⟩
    simp only [heapOf, Option.some.injEq, Prod.mk.injEq, HeapDb.mk.injEq] at eq
    obtain ⟨⟨keyspace, -⟩, rfl⟩ := eq
    have at_key := imageHt_get keyspace key
    rw [Ht.get_del, if_pos rfl, Option.map_none, eq_comm, Option.map_eq_none_iff] at at_key
    have same := congrFun (congrArg Cells.val restored) key
    exact same.symm.trans at_key
  · intro new
    refine ⟨{ db with keyspace := ((db.keyspace.set key value).del key).1 }, false, rfl, ?_⟩
    rw [if_neg Bool.false_ne_true]
    ext1
    · funext k
      by_cases same : k = key
      · simp [same, new]
      · simp [same]
    · rfl

theorem dbSetex_untimed {expireAt : Int} (untimed : ¬ expireAt > 0) (io io' : SetIo) (db : HeapDb)
    (key value : Bytes) :
    HeapTable.dbSetex io io' db key value expireAt = HeapTable.dbSet io db key value := by
  unfold HeapTable.dbSetex HeapTable.dbSet
  rcases htSetStr io db.keyspace key value with _ | ⟨keyspace, _ | _⟩
  · rfl
  · rfl
  · simp [untimed]

theorem dbSetex_atomic (db : Db) (key value : Bytes) (expireAt : Int) (io io' : SetIo) :
    Atomic db key (setexOp value expireAt)
        (HeapTable.dbSetex io io' (heapOf db) key value expireAt) ↔
      SetexSafe io io' db key expireAt := by
  by_cases timed : expireAt > 0
  · have out := htSet_outcome io storedStr db.keyspace key (if io.value then some value else none) value
    have out' := htSet_outcome io' storedI64 db.expires key expireAt expireAt
    unfold HeapTable.dbSetex htSetStr SetexSafe
    rw [if_pos timed]
    simp only [timed, if_true]
    simp only [heapOf]
    generalize htSet io (imageHt storedStr db.keyspace.raw) key
      (if io.value then some value else none) = result at out ⊢
    generalize htSet io' (imageHt storedI64 db.expires.raw) key expireAt = result' at out' ⊢
    cases out with
    | refused refused => exact iff_of_true (atomic_refused db key _) (Or.inl refused)
    | crashed unrefused unstored =>
      exact iff_of_false Atomic.not_crashed (by simp [unrefused, unstored])
    | keyless unrefused unstored t del =>
      refine iff_of_false ?_ (by simp [unrefused, unstored])
      cases out' with
      | refused refused =>
        simp only [del]
        exact Atomic.not_crashed
      | crashed => exact Atomic.not_crashed
      | stored | keyless => exact Atomic.not_keyless (Or.inl del)
    | stored stored =>
      have unrefused : ¬ Refused io db.keyspace key := mt Refused.not_stored (not_not.mpr stored)
      simp only [unrefused, stored, false_or, true_and]
      cases out' with
      | refused refused =>
        simp only [del_put, Option.map_some, refused, refused.not_stored, false_and, false_or,
          true_and]
        exact rollback_atomic db key value _
      | crashed unrefused' unstored' =>
        exact iff_of_false Atomic.not_crashed (by simp [unrefused', unstored'])
      | keyless unrefused' unstored' t del =>
        exact iff_of_false (Atomic.not_keyless (Or.inr del)) (by simp [unrefused', unstored'])
      | stored stored' =>
        have unrefused' : ¬ Refused io' db.expires key := mt Refused.not_stored (not_not.mpr stored')
        simp only [stored', unrefused', true_and, false_and, or_false]
        cases copied : io.value with
        | false => exact iff_of_false Atomic.not_valueless (by simp)
        | true =>
          have updated := dbSetex_cells db key value expireAt
          rw [Database.dbSetex, if_pos timed] at updated
          refine iff_of_true ⟨_, true, ?_, updated⟩ rfl
          rw [if_pos rfl, image_put_str, image_put_i64]
          rfl
  · rw [dbSetex_untimed timed, SetexSafe, if_neg timed, setexOp, if_neg timed]
    exact dbSet_atomic db key value io

def ExpireSafe (io : SetIo) (db : Db) (key : Bytes) (expireAt : Int) : Prop :=
  expireAt ≤ 0 ∨ db.keyspace.get key = none ∨ Refused io db.expires key ∨ Stored io db.expires key

theorem dbKeyExpire_atomic (db : Db) (key : Bytes) (expireAt : Int) (io : SetIo) :
    Atomic db key (expireOp expireAt) (HeapTable.dbKeyExpire io (heapOf db) key expireAt) ↔
      ExpireSafe io db key expireAt := by
  unfold HeapTable.dbKeyExpire ExpireSafe
  by_cases past : expireAt ≤ 0
  · rw [if_pos past]
    exact iff_of_true (atomic_refused db key _) (Or.inl past)
  · have walk : htExists (heapOf db).keyspace key = some (db.keyspace.get key).isSome := by
      rw [heapOf, htExists_image, ← Ht.exists_eq]
      rfl
    rw [if_neg past, walk]
    cases held : db.keyspace.get key with
    | none => exact iff_of_true (atomic_refused db key _) (Or.inr (Or.inl rfl))
    | some value =>
      have out := htSet_outcome io storedI64 db.expires key expireAt expireAt
      simp only [past, reduceCtorEq, false_or, Option.isSome_some]
      change Atomic db key _ ((htSet io (imageHt storedI64 db.expires.raw) key expireAt).map _) ↔ _
      generalize htSet io (imageHt storedI64 db.expires.raw) key expireAt = result at out ⊢
      cases out with
      | refused refused => exact iff_of_true (atomic_refused db key _) (Or.inl refused)
      | crashed unrefused unstored =>
        exact iff_of_false Atomic.not_crashed (by simp [unrefused, unstored])
      | keyless unrefused unstored t del =>
        exact iff_of_false (Atomic.not_keyless (Or.inr del)) (by simp [unrefused, unstored])
      | stored stored =>
        have updated := dbKeyExpire_cells db key expireAt
        have taken : ¬ (expireAt ≤ 0 ∨ db.keyspace.exists_ key = false) := by simp [past, held]
        rw [Database.dbKeyExpire, if_neg taken] at updated
        refine iff_of_true ⟨_, true, ?_, updated⟩ (Or.inr stored)
        rw [Option.map_some, image_put_i64]
        rfl

/-- The three writes are atomic under exactly these failures. -/
theorem atomic_iff (db : Db) (key value : Bytes) (expireAt : Int) (io io' : SetIo) :
    (Atomic db key (setOp value) (HeapTable.dbSet io (heapOf db) key value) ↔ SetSafe io db key) ∧
      (Atomic db key (setexOp value expireAt)
          (HeapTable.dbSetex io io' (heapOf db) key value expireAt) ↔
        SetexSafe io io' db key expireAt) ∧
      (Atomic db key (expireOp expireAt) (HeapTable.dbKeyExpire io' (heapOf db) key expireAt) ↔
        ExpireSafe io' db key expireAt) :=
  ⟨dbSet_atomic db key value io, dbSetex_atomic db key value expireAt io io',
    dbKeyExpire_atomic db key expireAt io'⟩

/-- SETEX on a key that is there, without memory for the entry of its deadline, fails and
deletes the key. -/
theorem dbSetex_deletes :
    let db := (Database.dbSet (dbCreate 0) (ascii "k") (ascii "old")).1
    let result := HeapTable.dbSetex {} { entry := false } (heapOf db) (ascii "k") (ascii "new") 5
    result.map (·.2) = some false ∧
      result.map (fun r => HeapTable.htExists r.1.keyspace (ascii "k")) = some (some false) ∧
      ¬ Atomic db (ascii "k") (setexOp (ascii "new") 5) result := by
  refine ⟨by decide +kernel, by decide +kernel, ?_⟩
  rw [dbSetex_atomic]
  decide +kernel

end ByteKV.AllocFailure
