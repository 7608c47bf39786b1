import ByteKV.Database

/-! The active sweep of db.c, whatever it draws. What it deletes from the expires table is
what it should; what goes from the keyspace depends on what the freed keys read as. -/
namespace ByteKV.ActiveSweep
open HashTable Database ExpiringLog

theorem mem_getBucket {α : Type} (ht : Ht α) {idx : Nat} {e : HtEntry α} :
    e ∈ ht.getBucket idx ↔ ht.get e.key = some e.val ∧ ht.raw.bucketOf e.key = idx := by
  constructor
  · intro he
    exact ⟨ht.mem_entries_iff.mp (RawHt.mem_entries.mpr ⟨idx, he⟩), ht.wf.placed idx e he⟩
  · rintro ⟨held, rfl⟩
    obtain ⟨idx, he⟩ := RawHt.mem_entries.mp (ht.mem_entries_iff.mpr held)
    rw [← ht.wf.placed idx _ he] at he
    exact he

theorem bucketOf_del {α : Type} (ht : Ht α) (key k : Bytes) :
    (ht.del key).1.raw.bucketOf k = ht.raw.bucketOf k := by
  change (htDel ht.raw key).1.bucketOf k = _
  unfold htDel
  simp only
  split <;> rfl

section Walk
variable (released : Bytes → Bytes) (nowMs : Int) (start : Db)

structure Swept (keys : List Bytes) (acc : Db × Nat) : Prop where
  nodup : keys.Nodup
  count : acc.2 = keys.length
  buckets : ∀ k, acc.1.expires.raw.bucketOf k = start.expires.raw.bucketOf k
  due : ∀ k, acc.1.expires.get k = if k ∈ keys then none else start.expires.get k
  val : ∀ k, acc.1.keyspace.get k = if k ∈ keys.map released then none else start.keyspace.get k

def Lapsed (k : Bytes) : Prop := past nowMs (start.expires.get k) = true

instance (k : Bytes) : Decidable (Lapsed nowMs start k) := inferInstanceAs (Decidable (_ = _))

variable {released nowMs start}

theorem Lapsed.due {k : Bytes} (h : Lapsed nowMs start k) :
    ∃ expireAt, start.expires.get k = some expireAt ∧ expireAt < nowMs := by
  cases due : start.expires.get k with
  | none => simp [Lapsed, due] at h
  | some expireAt => exact ⟨expireAt, rfl, by simpa [Lapsed, due] using h⟩

theorem Swept.none : Swept released start [] (start, 0) :=
  ⟨List.nodup_nil, rfl, fun _ => rfl, by simp, by simp⟩

theorem dbExpireCleanThrough_eq (db : Db) (key freed : Bytes) :
    dbExpireCleanThrough db key freed nowMs =
      if past nowMs (db.expires.get key) then ((dbDelThrough db key freed).1, true)
      else (db, false) := by
  unfold dbExpireCleanThrough
  split
  · rename_i expireAt due
    simp only [due, past_some, decide_eq_true_eq, gt_iff_lt]
  · rename_i due
    simp [due]

variable (nowMs) in
theorem Swept.visit {keys : List Bytes} {acc : Db × Nat} (h : Swept released start keys acc)
    (key : Bytes) : ∃ keys', (∀ k, k ∈ keys' ↔ k ∈ keys ∨ Lapsed nowMs start k ∧ k = key) ∧
      Swept released start keys' ((dbExpireCleanThrough acc.1 key (released key) nowMs).1,
        acc.2 + (dbExpireCleanThrough acc.1 key (released key) nowMs).2.toNat) := by
  have due := h.due key
  rw [dbExpireCleanThrough_eq]
  by_cases lapsed : past nowMs (acc.1.expires.get key)
  · have fresh : key ∉ keys := fun gone => by simp [due, gone] at lapsed
    rw [if_neg fresh] at due
    rw [due] at lapsed
    rw [due, if_pos lapsed]
    refine ⟨key :: keys, fun k => ?_, List.nodup_cons.mpr ⟨fresh, h.nodup⟩, ?_, ?_, ?_, ?_⟩
    · rw [List.mem_cons, or_comm]
      exact or_congr Iff.rfl ⟨fun same => ⟨same ▸ lapsed, same⟩, And.right⟩
    · rw [h.count]
      rfl
    · exact fun k => (bucketOf_del _ _ _).trans (h.buckets k)
    · intro k
      simp only [dbDelThrough, Ht.get_del, h.due, List.mem_cons]
      by_cases same : k = key <;> simp [same]
    · intro k
      simp only [dbDelThrough, Ht.get_del, h.val, List.map_cons, List.mem_cons]
      by_cases same : k = released key <;> simp [same]
  · rw [if_neg lapsed]
    refine ⟨keys, fun k => ⟨Or.inl, ?_⟩, h⟩
    rintro (gone | ⟨lapsedAtStart, rfl⟩)
    · exact gone
    · by_contra fresh
      rw [due, if_neg fresh] at lapsed
      exact lapsed lapsedAtStart

variable (nowMs) in
theorem Swept.chain (chain : List (HtEntry Int)) {keys : List Bytes} {acc : Db × Nat}
    (h : Swept released start keys acc) :
    ∃ keys', (∀ k, k ∈ keys' ↔ k ∈ keys ∨ Lapsed nowMs start k ∧ k ∈ chain.map HtEntry.key) ∧
      Swept released start keys' (sweepChain released nowMs chain acc) := by
  induction chain generalizing keys acc with
  | nil => exact ⟨keys, by simp, h⟩
  | cons e next ih =>
    obtain ⟨visited, mem, h⟩ := h.visit nowMs e.key
    obtain ⟨keys', mem', h⟩ := ih h
    refine ⟨keys', fun k => ?_, h⟩
    rw [mem', mem, List.map_cons, List.mem_cons, or_assoc, ← and_or_left]

variable (nowMs) in
theorem Swept.picks (picks : List Nat) {keys : List Bytes} {acc : Db × Nat}
    (h : Swept released start keys acc) :
    ∃ keys', (∀ k, k ∈ keys' ↔
        k ∈ keys ∨ Lapsed nowMs start k ∧ start.expires.raw.bucketOf k ∈ picks) ∧
      Swept released start keys' (sweepPicks released nowMs picks acc) := by
  induction picks generalizing keys acc with
  | nil => exact ⟨keys, by simp, h⟩
  | cons idx picks ih =>
    obtain ⟨visited, mem, next⟩ := h.chain nowMs (acc.1.expires.getBucket idx)
    obtain ⟨keys', mem', last⟩ := ih next
    refine ⟨keys', fun k => ?_, last⟩
    have inBucket : k ∈ keys ∨ Lapsed nowMs start k ∧
        k ∈ (acc.1.expires.getBucket idx).map HtEntry.key ↔
      k ∈ keys ∨ Lapsed nowMs start k ∧ start.expires.raw.bucketOf k = idx := by
      by_cases gone : k ∈ keys
      · simp only [gone, true_or]
      · simp only [gone, false_or, and_congr_right_iff]
        intro lapsed
        obtain ⟨expireAt, due, -⟩ := lapsed.due
        simp only [List.mem_map, mem_getBucket, h.buckets, h.due]
        constructor
        · rintro ⟨e, ⟨-, bucket⟩, rfl⟩
          exact bucket
        · intro bucket
          exact ⟨⟨k, expireAt⟩, ⟨by simp [gone, due], bucket⟩, rfl⟩
    rw [mem', mem, inBucket, List.mem_cons, or_assoc, ← and_or_left]

end Walk

section Sweep
variable (db : Db) (sampleSize : Nat) (nowMs : Int) (draws : List Nat) (released : Bytes → Bytes)

def Picked (k : Bytes) : Prop :=
  ∃ idx ∈ drawPicks db.expires (min sampleSize db.expires.raw.used) draws,
    ∃ e ∈ db.expires.getBucket idx, e.key = k ∧ e.val < nowMs

/-- The sweep removes the expired keys of the picked buckets from both tables, leaves every
other key alone, and returns how many it has removed. -/
structure SweepsExactly : Prop where
  gone : ∀ k, Picked db sampleSize nowMs draws k →
    (dbActiveSweep db sampleSize nowMs draws released).1.expires.get k = none ∧
      (dbActiveSweep db sampleSize nowMs draws released).1.keyspace.get k = none
  kept : ∀ k, ¬ Picked db sampleSize nowMs draws k →
    (dbActiveSweep db sampleSize nowMs draws released).1.expires.get k = db.expires.get k ∧
      (dbActiveSweep db sampleSize nowMs draws released).1.keyspace.get k = db.keyspace.get k
  count : ∃ keys : List Bytes, keys.Nodup ∧ (∀ k, k ∈ keys ↔ Picked db sampleSize nowMs draws k) ∧
    (dbActiveSweep db sampleSize nowMs draws released).2 = keys.length

theorem picked_iff (k : Bytes) : Picked db sampleSize nowMs draws k ↔ Lapsed nowMs db k ∧
    db.expires.raw.bucketOf k ∈ drawPicks db.expires (min sampleSize db.expires.raw.used) draws := by
  constructor
  · rintro ⟨idx, picked, e, he, rfl, lapsed⟩
    obtain ⟨held, rfl⟩ := (mem_getBucket _).mp he
    exact ⟨by simpa [Lapsed, held] using lapsed, picked⟩
  · rintro ⟨lapsed, picked⟩
    obtain ⟨expireAt, due, less⟩ := lapsed.due
    exact ⟨_, picked, ⟨k, expireAt⟩, (mem_getBucket _).mpr ⟨due, rfl⟩, rfl, less⟩

theorem dbActiveSweep_swept : ∃ keys, (∀ k, k ∈ keys ↔ Picked db sampleSize nowMs draws k) ∧
    Swept released db keys (dbActiveSweep db sampleSize nowMs draws released) := by
  have sweep : dbActiveSweep db sampleSize nowMs draws released = sweepPicks released nowMs
      (drawPicks db.expires (min sampleSize db.expires.raw.used) draws) (db, 0) := by
    unfold dbActiveSweep
    split
    · rename_i none
      rw [none, Nat.min_zero, drawPicks, sweepPicks]
    · rfl
  have start : Swept released db [] (db, 0) := .none
  obtain ⟨keys, mem, swept⟩ := start.picks nowMs
    (drawPicks db.expires (min sampleSize db.expires.raw.used) draws)
  rw [← sweep] at swept
  exact ⟨keys, fun k => by rw [mem, picked_iff]; simp, swept⟩

/-- The sweep is exact if and only if the freed keys, as far as what they read as are keys
at all, read as the keys that were to go. -/
theorem sweepsExactly_iff
    (owned : ∀ k, (db.expires.get k).isSome → (db.keyspace.get k).isSome) :
    SweepsExactly db sampleSize nowMs draws released ↔
      ∀ k, (db.keyspace.get k).isSome →
        ((∃ x, Picked db sampleSize nowMs draws x ∧ released x = k) ↔
          Picked db sampleSize nowMs draws k) := by
  obtain ⟨keys, mem, swept⟩ := dbActiveSweep_swept db sampleSize nowMs draws released
  have freed (k : Bytes) : k ∈ keys.map released ↔
      ∃ x, Picked db sampleSize nowMs draws x ∧ released x = k := by
    simp only [List.mem_map, mem]
  constructor
  · intro exact k held
    rw [← freed]
    have val := swept.val k
    by_cases read : k ∈ keys.map released
    · refine iff_of_true read (by_contra fun other => ?_)
      rw [(exact.kept k other).2, if_pos read] at val
      simp [val] at held
    · refine iff_of_false read fun picked => ?_
      rw [(exact.gone k picked).2, if_neg read] at val
      simp [← val] at held
  · intro reads
    refine ⟨fun k picked => ?_, fun k other => ?_, keys, swept.nodup, mem, swept.count⟩
    · rw [swept.due, if_pos ((mem k).mpr picked), swept.val]
      obtain ⟨expireAt, due, -⟩ := ((picked_iff db sampleSize nowMs draws k).mp picked).1.due
      have read := (freed k).mpr ((reads k (owned k (by simp [due]))).mpr picked)
      rw [if_pos read]
      exact ⟨rfl, rfl⟩
    · rw [swept.due, if_neg (mt (mem k).mp other), swept.val]
      refine ⟨rfl, ?_⟩
      split
      · rename_i read
        by_contra held
        have held' : (db.keyspace.get k).isSome := Option.isSome_iff_ne_none.mpr (Ne.symm held)
        exact other ((reads k held').mp ((freed k).mp read))
      · rfl

end Sweep

def mixedStore : Db :=
  (dbSetex (dbSetex (dbSetex (dbSet (dbCreate 0) (ascii "d") (ascii "4")).1
    (ascii "c") (ascii "3") 20).1 (ascii "b") (ascii "2") 5).1 (ascii "a") (ascii "1") 5).1

theorem mixedStore_owned (k : Bytes) (due : (mixedStore.expires.get k).isSome) :
    (mixedStore.keyspace.get k).isSome := by
  simp only [mixedStore, dbSetex, dbSet, dbCreate, Int.reduceLT, gt_iff_lt, if_true, Ht.get_set,
    Ht.get_create] at due ⊢
  split_ifs at due ⊢ <;> simp at due ⊢

def swapped (k : Bytes) : Bytes :=
  if k = ascii "a" then ascii "b" else if k = ascii "b" then ascii "a" else k

theorem sweepsExactly_swapped : SweepsExactly mixedStore 3 10 [2, 1, 3, 0] swapped := by
  refine (sweepsExactly_iff mixedStore 3 10 [2, 1, 3, 0] swapped mixedStore_owned).mpr fun k _ => ?_
  have both : Picked mixedStore 3 10 [2, 1, 3, 0] (ascii "a") ∧
      Picked mixedStore 3 10 [2, 1, 3, 0] (ascii "b") := by
    rw [picked_iff, picked_iff]
    decide +kernel
  constructor
  · rintro ⟨x, picked, rfl⟩
    unfold swapped
    split_ifs
    · exact both.2
    · exact both.1
    · exact picked
  · intro picked
    by_cases first : k = ascii "a"
    · exact ⟨_, both.2, first ▸ by decide⟩
    · by_cases second : k = ascii "b"
      · exact ⟨_, both.1, second ▸ by decide⟩
      · exact ⟨k, picked, by rw [swapped, if_neg first, if_neg second]⟩

def lapsedStore : Db := (dbSetex (dbCreate 0) (ascii "k") (ascii "v") 5).1

theorem sweep_leaves_key :
    (dbActiveSweep lapsedStore 1 10 [0, 1, 2, 3] fun _ => []).2 = 1 ∧
      (dbActiveSweep lapsedStore 1 10 [0, 1, 2, 3] fun _ => []).1.expires.get (ascii "k") = none ∧
      (dbActiveSweep lapsedStore 1 10 [0, 1, 2, 3] fun _ => []).1.keyspace.get (ascii "k") =
        some (ascii "v") ∧
      ¬ SweepsExactly lapsedStore 1 10 [0, 1, 2, 3] fun _ => [] := by
  have stays : (dbActiveSweep lapsedStore 1 10 [0, 1, 2, 3] fun _ => []).1.keyspace.get (ascii "k") =
      some (ascii "v") := by decide +kernel
  refine ⟨by decide +kernel, by decide +kernel, stays, fun exact => ?_⟩
  have picked : Picked lapsedStore 1 10 [0, 1, 2, 3] (ascii "k") := by
    rw [picked_iff]
    decide +kernel
  rw [(exact.gone _ picked).2] at stays
  cases stays

end ByteKV.ActiveSweep
