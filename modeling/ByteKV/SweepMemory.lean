import ByteKV.DatabaseMemory

/-! The active sweep in memory. It hands `db_del` a key that stands in the expires table,
and `db_del` reads it once more after the entry it stands in is freed. -/
namespace ByteKV.SweepMemory
open HashTable (HtEntry RawHt)
open Database (Db)
open Separation Assn HeapProgram TableMemory TableLayout DatabaseMemory

inductive KeyAt (h : Heap Ptr Block) (key : Ptr) : Ptr → Prop
  | here {p q : Ptr} {v : HtVal} (nonzero : p ≠ null)
      (entry : h.lookup p = some (Layout.put (⟨key, v, q⟩ : EntryBlock))) : KeyAt h key p
  | next {p k q : Ptr} {v : HtVal} (nonzero : p ≠ null)
      (entry : h.lookup p = some (Layout.put (⟨k, v, q⟩ : EntryBlock))) (rest : KeyAt h key q) :
      KeyAt h key p

theorem put_entry {e f : EntryBlock} {o : Option Block} (left : o = some (Layout.put e))
    (right : o = some (Layout.put f)) : e = f :=
  Block.entry.inj (Option.some.inj (left.symm.trans right))

theorem put_db {d e : DbBlock} {o : Option Block} (left : o = some (Layout.put d))
    (right : o = some (Layout.put e)) : d = e :=
  Block.db.inj (Option.some.inj (left.symm.trans right))

theorem put_chars {a b : Bytes} {o : Option Block} (left : o = some (Layout.put a))
    (right : o = some (Layout.put b)) : a = b :=
  Block.chars.inj (Option.some.inj (left.symm.trans right))

section Chain
variable {α : Type} [Stored α] {h : Heap Ptr Block} {key p : Ptr} {k : Bytes} {es : List (HtEntry α)}

theorem KeyAt.mem (held : h ∈ within (chainAt p es)) (here : h.lookup key = some (Layout.put k))
    (at_ : KeyAt h key p) : k ∈ es.map HtEntry.key := by
  induction es generalizing p with
  | nil =>
    rw [chainAt, ← mul_one (fact (p = null) : Assn Ptr Block)] at held
    have zero := (within_fact held).1
    cases at_ with
    | here nonzero | next nonzero => exact absurd zero nonzero
  | cons e es ih =>
    obtain ⟨-, kp, v, q, entry, chars, -, rest⟩ := within_chain_cons held
    cases at_ with
    | here nonzero entry' =>
      obtain ⟨rfl, -, -⟩ := EntryBlock.mk.inj (put_entry entry entry')
      exact List.mem_cons.mpr (Or.inl (put_chars here chars))
    | next nonzero entry' further =>
      obtain ⟨-, -, rfl⟩ := EntryBlock.mk.inj (put_entry entry entry')
      exact List.mem_cons_of_mem _ (ih rest further)

def KeepsHt (h h' : Heap Ptr Block) : Prop :=
  ∀ (a : Ptr) (b : HtBlock), h.lookup a = some (Layout.put b) →
    ∃ b' : HtBlock, h'.lookup a = some (Layout.put b')

theorem other_block {x a : Ptr} {v w : Block} (there : h.lookup x = some v)
    (at_ : h.lookup a = some w) (ne : v ≠ w) : a ≠ x := by
  rintro rfl
  exact ne (Option.some.inj (there.symm.trans at_))

theorem bypass_run {m : Memory Ptr Block} {ht prev : Ptr} {idx : Nat} {hb : HtBlock}
    {slots : List Ptr} (q : Ptr) (table : m.heap.lookup ht = some (Layout.put hb))
    (array : m.heap.lookup hb.table = some (Layout.put slots)) (inside : idx < slots.length)
    (before : prev = null ∨ ∃ e : EntryBlock, m.heap.lookup prev = some (Layout.put e)) :
    ∃ m' : Memory Ptr Block, bypass ht idx prev q m = some (.ok ((), m')) ∧
      (∀ (a : Ptr) (b : HtBlock), m.heap.lookup a = some (Layout.put b) →
        m'.heap.lookup a = some (Layout.put b)) ∧
      (∀ (a : Ptr) (b : Bytes), m.heap.lookup a = some (Layout.put b) →
        m'.heap.lookup a = some (Layout.put b)) ∧
      ∀ (a : Ptr) (e : EntryBlock), m.heap.lookup a = some (Layout.put e) →
        ∃ e' : EntryBlock, m'.heap.lookup a = some (Layout.put e') := by
  by_cases first : prev = null
  · refine ⟨⟨m.heap.insert hb.table (Layout.put (slots.set idx q)), m.asked⟩, ?_,
      fun a b at_ => ?_, fun a b at_ => ?_, fun a e at_ => ⟨e, ?_⟩⟩
    · rw [bypass, if_pos first, bind_run (load_run table), setSlot, bind_run (load_run array),
        if_pos inside, store_run array]
    · exact (Finmap.lookup_insert_of_ne _ (other_block array at_ Block.noConfusion)).trans at_
    · exact (Finmap.lookup_insert_of_ne _ (other_block array at_ Block.noConfusion)).trans at_
    · exact (Finmap.lookup_insert_of_ne _ (other_block array at_ Block.noConfusion)).trans at_
  · obtain ⟨e, there⟩ := before.resolve_left first
    refine ⟨⟨m.heap.insert prev (Layout.put { e with next := q }), m.asked⟩, ?_,
      fun a b at_ => ?_, fun a b at_ => ?_, fun a e' at_ => ?_⟩
    · rw [bypass, if_neg first, bind_run (load_run there), store_run there]
    · exact (Finmap.lookup_insert_of_ne _ (other_block there at_ Block.noConfusion)).trans at_
    · exact (Finmap.lookup_insert_of_ne _ (other_block there at_ Block.noConfusion)).trans at_
    · by_cases same : a = prev
      · exact ⟨{ e with next := q }, same ▸ Finmap.lookup_insert _⟩
      · exact ⟨e', (Finmap.lookup_insert_of_ne _ same).trans at_⟩

theorem release_run {m : Memory Ptr Block} {ht : Ptr} {hb : HtBlock} {e : EntryBlock}
    (plain : hb.valType = .i64) (table : m.heap.lookup ht = some (Layout.put hb))
    (entry : m.heap.lookup p = some (Layout.put e))
    (here : m.heap.lookup key = some (Layout.put k)) :
    ∃ m' : Memory Ptr Block, release ht p key m = some (.ok ((), m')) ∧ key ∉ m'.heap ∧
      KeepsHt m.heap m'.heap := by
  have entryKey : p ≠ key := other_block here entry Block.noConfusion
  have htKey : ht ≠ key := other_block here table Block.noConfusion
  have htEntry : ht ≠ p := other_block entry table Block.noConfusion
  have table₁ : (m.heap.erase key).lookup ht = some (Layout.put hb) :=
    (Finmap.lookup_erase_ne htKey).trans table
  have entry₁ : (m.heap.erase key).lookup p = some (Layout.put e) :=
    (Finmap.lookup_erase_ne entryKey).trans entry
  have table₂ : ((m.heap.erase key).erase p).lookup ht = some (Layout.put hb) :=
    (Finmap.lookup_erase_ne htEntry).trans table₁
  have keeps : htValFree ht p ⟨m.heap.erase key, m.asked⟩ =
      some (.ok ((), ⟨m.heap.erase key, m.asked⟩)) := by
    rw [htValFree, bind_run (load_run table₁), if_neg (by simp [plain])]
    rfl
  refine ⟨⟨((m.heap.erase key).erase p).insert ht (Layout.put { hb with used := hb.used - 1 }),
    m.asked⟩, ?_, fun mem => ?_, fun a b at_ => ?_⟩
  · rw [release, bind_run (free_run here), bind_run keeps, bind_run (free_run entry₁),
      bind_run (load_run table₂), store_run table₂]
  · rcases Finmap.mem_insert.mp mem with same | mem
    · exact htKey same.symm
    · exact Finmap.notMem_erase_self (Finmap.mem_erase.mp mem).2
  · have notKey : a ≠ key := other_block here at_ Block.noConfusion
    have notEntry : a ≠ p := other_block entry at_ Block.noConfusion
    by_cases same : a = ht
    · exact ⟨{ hb with used := hb.used - 1 }, by rw [same, Finmap.lookup_insert]⟩
    · refine ⟨b, (Finmap.lookup_insert_of_ne _ same).trans ?_⟩
      exact (Finmap.lookup_erase_ne notEntry).trans ((Finmap.lookup_erase_ne notKey).trans at_)

theorem delLoop_frees {m : Memory Ptr Block} {ht prev : Ptr} (idx : Nat) {hb : HtBlock}
    {slots : List Ptr} (plain : hb.valType = .i64)
    (table : m.heap.lookup ht = some (Layout.put hb))
    (array : m.heap.lookup hb.table = some (Layout.put slots)) (inside : idx < slots.length)
    (here : m.heap.lookup key = some (Layout.put k)) (held : m.heap ∈ within (chainAt p es))
    (distinct : (es.map HtEntry.key).Nodup) (at_ : KeyAt m.heap key p)
    (before : prev = null ∨ ∃ e : EntryBlock, m.heap.lookup prev = some (Layout.put e)) :
    ∃ m' : Memory Ptr Block, delLoop ht key idx (prev, p) m = some (.ok (true, m')) ∧
      key ∉ m'.heap ∧ KeepsHt m.heap m'.heap := by
  induction es generalizing prev p with
  | nil => simpa using at_.mem held here
  | cons e es ih =>
    obtain ⟨nonzero, kp, v, q, entry, chars, -, rest⟩ := within_chain_cons held
    obtain ⟨new, distinct⟩ := List.nodup_cons.mp distinct
    rw [delLoop_eq prev nonzero, bind_run (load_run entry), bind_run (strcmpEq_run chars here)]
    by_cases same : e.key = k
    · have itself : kp = key := by
        cases at_ with
        | here _ entry' => exact (EntryBlock.mk.inj (put_entry entry entry')).1
        | next _ entry' further =>
          obtain ⟨-, -, rfl⟩ := EntryBlock.mk.inj (put_entry entry entry')
          exact absurd (same ▸ further.mem rest here) new
      subst itself
      obtain ⟨m₁, bypassed, hts, strings, entries⟩ := bypass_run q table array inside before
      obtain ⟨e₁, entry₁⟩ := entries p _ entry
      obtain ⟨m₂, released, gone, keeps⟩ :=
        release_run plain (hts ht hb table) entry₁ (strings kp k here)
      refine ⟨m₂, ?_, gone, fun a b at_ => keeps a b (hts a b at_)⟩
      have unlinked : unlink ht idx prev p m = some (.ok ((), m₂)) := by
        rw [unlink, bind_run (load_run entry), bind_run bypassed, released]
      rw [if_pos (decide_eq_true same), bind_run unlinked]
      rfl
    · have further : KeyAt m.heap key q := by
        cases at_ with
        | here _ entry' =>
          obtain ⟨rfl, -, -⟩ := EntryBlock.mk.inj (put_entry entry entry')
          exact absurd (put_chars chars here) same
        | next _ entry' further =>
          obtain ⟨-, -, rfl⟩ := EntryBlock.mk.inj (put_entry entry entry')
          exact further
      rw [if_neg (by simpa using same)]
      exact ih rest distinct further (Or.inr ⟨_, entry⟩)

end Chain

/-- The key that `db_del` is handed stands in an entry of expires: the first `ht_del` frees it,
and the second reads it. -/
def Dangles (p : Ptr) (db : Db) (m : Memory Ptr Block) (k : Bytes) (key : Ptr) : Prop :=
  m.heap.lookup key = some (Layout.put k) ∧ ∃ (ks ex : Ptr) (m' : Memory Ptr Block),
    m.heap.lookup p = some (Layout.put (⟨ks, ex, db.startMs⟩ : DbBlock)) ∧
      htDel ex key m = some (.ok (true, m')) ∧ key ∉ m'.heap ∧
      htDel ks key m' = some (.error (.read key))

theorem Dangles.dbDel_run {p key : Ptr} {db : Db} {m : Memory Ptr Block} {k : Bytes}
    (dangles : Dangles p db m k key) : dbDel p key m = some (.error (.read key)) := by
  obtain ⟨-, ks, ex, m', fields, freed, -, reads⟩ := dangles
  rw [dbDel, bind_run (load_run fields), bind_run freed, reads]

theorem sweepChain_null (db : Ptr) (nowMs : Int) (cleaned : Nat) :
    sweepChain db nowMs (null, cleaned) = pure cleaned := by
  rw [sweepChain, loop_eq]
  rfl

theorem sweepChain_eq (db : Ptr) (nowMs : Int) {e : Ptr} (cleaned : Nat) (nonzero : e ≠ null) :
    sweepChain db nowMs (e, cleaned) = (do
      let b ← load EntryBlock e
      let hit ← dbExpireClean db b.key nowMs
      sweepChain db nowMs (b.next, cleaned + hit.toNat)) := by
  rw [sweepChain, loop_eq]
  simp only [if_neg nonzero, bind_assoc]
  rfl

section Sweep
variable {m : Memory Ptr Block} {p ks ex t : Ptr} {slots : List Ptr} {db : Db}
  (held : m.heap ∈ within (dbAt p db))
  (fields : m.heap.lookup p = some (Layout.put (⟨ks, ex, db.startMs⟩ : DbBlock)))
  (table : m.heap.lookup ex = some (Layout.put (header t db.expires.raw)))
  (array : m.heap.lookup t = some (Layout.put slots))
  (chains : ∀ i < db.expires.raw.table.length, ∃ _ : i < slots.length,
    m.heap ∈ within (chainAt slots[i] (db.expires.raw.chain i)))

include fields table array chains in
theorem dangles {key : Ptr} {k : Bytes}
    (keyspace : ∃ b : HtBlock, m.heap.lookup ks = some (Layout.put b))
    (here : m.heap.lookup key = some (Layout.put k))
    (inSlots : db.expires.raw.bucketOf k < slots.length)
    (at_ : KeyAt m.heap key slots[db.expires.raw.bucketOf k]) : Dangles p db m k key := by
  have shape := db.expires.wf.toShape
  obtain ⟨_, chain⟩ := chains _ (shape.bucketOf_lt k)
  obtain ⟨m', ran, gone, keeps⟩ := delLoop_frees (db.expires.raw.bucketOf k) rfl table array
    inSlots here chain (shape.distinct _) at_ (Or.inl rfl)
  obtain ⟨b, there⟩ := keyspace
  obtain ⟨b', there'⟩ := keeps ks b there
  refine ⟨here, ks, ex, m', fields, ?_, gone, ?_⟩
  · rw [htDel, bind_run (load_run table), bind_run (htHash_run here)]
    exact (bind_run (slot_run array inSlots)).trans ran
  · rw [htDel, bind_run (load_run there')]
    exact bind_faults (bind_faults (load_faults Bytes gone))

include held fields table array chains in
theorem sweepChain_run (nowMs : Int) {idx : Nat} (inSlots : idx < slots.length) {e : Ptr}
    {es : List (HtEntry Int)} (cleaned : Nat) (chain : m.heap ∈ within (chainAt e es))
    (sub : ∀ x ∈ es, x ∈ db.expires.getBucket idx)
    (reach : ∀ key, KeyAt m.heap key e → KeyAt m.heap key slots[idx]) :
    ((∀ x ∈ es, ¬ x.val < nowMs) → sweepChain p nowMs (e, cleaned) m = some (.ok (cleaned, m))) ∧
      ((∃ x ∈ es, x.val < nowMs) → ∃ x ∈ es, x.val < nowMs ∧ ∃ key, Dangles p db m x.key key ∧
        sweepChain p nowMs (e, cleaned) m = some (.error (.read key))) := by
  induction es generalizing e cleaned with
  | nil =>
    rw [chainAt, ← mul_one (fact (e = null) : Assn Ptr Block)] at chain
    obtain rfl := (within_fact chain).1
    rw [sweepChain_null]
    exact ⟨fun _ => rfl, by simp⟩
  | cons x es ih =>
    obtain ⟨nonzero, kp, v, q, entry, chars, -, rest⟩ := within_chain_cons chain
    obtain ⟨due, bucket⟩ := (ActiveSweep.mem_getBucket db.expires).mp (sub x List.mem_cons_self)
    rw [sweepChain_eq p nowMs cleaned nonzero, bind_run (load_run entry)]
    have clean := dbExpireClean_run held chars nowMs
    rw [due, ExpiringLog.past_some] at clean
    by_cases late : x.val < nowMs
    · refine ⟨fun early => absurd late (early x List.mem_cons_self), fun _ => ?_⟩
      rw [if_pos (decide_eq_true late)] at clean
      obtain ⟨ks', ex', fields', keyspace, -⟩ := within_db held
      obtain ⟨rfl, rfl, -⟩ := DbBlock.mk.inj (put_db fields fields')
      obtain ⟨_, _, there, -⟩ := within_ht keyspace
      subst bucket
      have dangling := dangles fields table array chains ⟨_, there⟩ chars inSlots
        (reach kp (.here nonzero entry))
      refine ⟨x, List.mem_cons_self, late, kp, dangling, ?_⟩
      exact bind_faults (clean.trans (bind_faults dangling.dbDel_run))
    · rw [if_neg (by simpa using late)] at clean
      rw [bind_run clean]
      obtain ⟨idle, busy⟩ := ih cleaned rest (fun y mem => sub y (List.mem_cons_of_mem x mem))
        fun key further => reach key (.next nonzero entry further)
      refine ⟨fun early => idle fun y mem => early y (List.mem_cons_of_mem x mem), ?_⟩
      rintro ⟨y, mem, past⟩
      have later : y ∈ es := (List.mem_cons.mp mem).resolve_left fun same => late (same ▸ past)
      obtain ⟨z, mem, past, found⟩ := busy ⟨y, later, past⟩
      exact ⟨z, List.mem_cons_of_mem x mem, past, found⟩

include held fields table array chains in
theorem sweepPicks_run (nowMs : Int) (picks : List Nat) (cleaned : Nat)
    (inside : ∀ idx ∈ picks, idx < db.expires.raw.table.length) :
    ((∀ idx ∈ picks, ∀ x ∈ db.expires.getBucket idx, ¬ x.val < nowMs) →
        sweepPicks p nowMs picks cleaned m = some (.ok (cleaned, m))) ∧
      ((∃ idx ∈ picks, ∃ x ∈ db.expires.getBucket idx, x.val < nowMs) →
        ∃ idx ∈ picks, ∃ x ∈ db.expires.getBucket idx, x.val < nowMs ∧
          ∃ key, Dangles p db m x.key key ∧
            sweepPicks p nowMs picks cleaned m = some (.error (.read key))) := by
  induction picks generalizing cleaned with
  | nil => exact ⟨fun _ => rfl, by simp⟩
  | cons idx picks ih =>
    obtain ⟨inSlots, chain⟩ := chains idx (inside idx List.mem_cons_self)
    obtain ⟨idle, busy⟩ := sweepChain_run held fields table array chains nowMs inSlots cleaned chain
      (fun _ mem => mem) fun _ at_ => at_
    rw [sweepPicks, bind_run (load_run fields), bind_run (load_run table),
      bind_run (slot_run array inSlots)]
    by_cases late : ∃ x ∈ db.expires.getBucket idx, x.val < nowMs
    · obtain ⟨x, mem, past, key, dangling, faults⟩ := busy late
      refine ⟨fun early => absurd past (early idx List.mem_cons_self x mem), fun _ => ?_⟩
      exact ⟨idx, List.mem_cons_self, x, mem, past, key, dangling, bind_faults faults⟩
    · have early : ∀ x ∈ db.expires.getBucket idx, ¬ x.val < nowMs := fun x mem past =>
        late ⟨x, mem, past⟩
      rw [bind_run (idle early)]
      obtain ⟨idle, busy⟩ := ih cleaned fun j mem => inside j (List.mem_cons_of_mem idx mem)
      refine ⟨fun early => idle fun j mem => early j (List.mem_cons_of_mem idx mem), ?_⟩
      rintro ⟨j, mem, some_late⟩
      have later : j ∈ picks :=
        (List.mem_cons.mp mem).resolve_left fun same => late (same ▸ some_late)
      obtain ⟨i, mem, found⟩ := busy ⟨j, later, some_late⟩
      exact ⟨i, List.mem_cons_of_mem idx mem, found⟩

include array chains in
theorem drawPicks_run (n : Nat) (draws : List Nat)
    (inside : ∀ idx ∈ draws, idx < db.expires.raw.table.length) :
    drawPicks t n draws m = some (.ok (Database.drawPicks db.expires n draws, m)) := by
  induction draws generalizing n with
  | nil => cases n <;> rfl
  | cons idx draws ih =>
    have later := fun j mem => inside j (List.mem_cons_of_mem idx mem)
    cases n with
    | zero => rfl
    | succ n =>
      obtain ⟨inSlots, chain⟩ := chains idx (inside idx List.mem_cons_self)
      rw [drawPicks, bind_run (slot_run array inSlots), Database.drawPicks]
      have same : db.expires.getBucket idx = db.expires.raw.chain idx := rfl
      rw [same]
      cases bucket : db.expires.raw.chain idx with
      | nil =>
        rw [bucket, chainAt, ← mul_one (fact (slots[idx] = null) : Assn Ptr Block)] at chain
        rw [if_pos (within_fact chain).1, if_pos rfl]
        exact ih (n + 1) later
      | cons x es =>
        rw [bucket] at chain
        rw [if_neg (within_chain_cons chain).1, if_neg (List.cons_ne_nil x es),
          bind_run (ih n later)]
        rfl

end Sweep

def DrawsInside (db : Db) (draws : List Nat) : Prop :=
  ∀ idx ∈ draws, idx < db.expires.raw.size

theorem drawn {expires : HashTable.Ht Int} {idx : Nat} (n : Nat) (draws : List Nat)
    (picked : idx ∈ Database.drawPicks expires n draws) : idx ∈ draws := by
  induction draws generalizing n with
  | nil => cases n <;> simp [Database.drawPicks] at picked
  | cons first draws ih =>
    cases n with
    | zero => simp [Database.drawPicks] at picked
    | succ n =>
      rw [Database.drawPicks] at picked
      split at picked
      · exact List.mem_cons_of_mem _ (ih (n + 1) picked)
      · rcases List.mem_cons.mp picked with rfl | later
        · exact List.mem_cons_self
        · exact List.mem_cons_of_mem _ (ih n later)

theorem some_picked_iff {db : Db} {sampleSize : Nat} {nowMs : Int} {draws : List Nat} :
    (∃ k, ActiveSweep.Picked db sampleSize nowMs draws k) ↔
      ∃ idx ∈ Database.drawPicks db.expires (min sampleSize db.expires.raw.used) draws,
        ∃ x ∈ db.expires.getBucket idx, x.val < nowMs := by
  constructor
  · rintro ⟨-, idx, picked, x, mem, rfl, late⟩
    exact ⟨idx, picked, x, mem, late⟩
  · rintro ⟨idx, picked, x, mem, late⟩
    exact ⟨x.key, idx, picked, x, mem, rfl, late⟩

/-- The sweep does nothing at all, or it reads a key that it has freed. -/
theorem dbActiveSweep_run {m : Memory Ptr Block} {p : Ptr} {db : Db}
    (held : m.heap ∈ within (dbAt p db)) (sampleSize : Nat) (nowMs : Int) {draws : List Nat}
    (inside : DrawsInside db draws) :
    ((∃ k, ActiveSweep.Picked db sampleSize nowMs draws k) →
        ∃ k key, ActiveSweep.Picked db sampleSize nowMs draws k ∧ Dangles p db m k key ∧
          dbActiveSweep p sampleSize nowMs draws m = some (.error (.read key))) ∧
      ((¬ ∃ k, ActiveSweep.Picked db sampleSize nowMs draws k) →
        dbActiveSweep p sampleSize nowMs draws m = some (.ok (0, m))) := by
  obtain ⟨ks, ex, fields, -, expires⟩ := within_db held
  obtain ⟨t, slots, table, array, chains⟩ := within_ht expires
  have drawnInside : ∀ idx ∈ Database.drawPicks db.expires (min sampleSize db.expires.raw.used) draws,
      idx < db.expires.raw.table.length := fun idx picked =>
    (inside idx (drawn _ draws picked)).trans_eq db.expires.wf.length_eq.symm
  have ran : dbActiveSweep p sampleSize nowMs draws m = sweepPicks p nowMs
      (Database.drawPicks db.expires (min sampleSize db.expires.raw.used) draws) 0 m := by
    rw [dbActiveSweep, bind_run (load_run fields), bind_run (load_run table)]
    by_cases empty : db.expires.raw.used = 0
    · rw [if_pos empty, empty, Nat.min_zero, Database.drawPicks]
      rfl
    · rw [if_neg empty]
      have picks := drawPicks_run array chains (min sampleSize db.expires.raw.used) draws
        fun idx mem => (inside idx mem).trans_eq db.expires.wf.length_eq.symm
      exact bind_run picks
  obtain ⟨idle, busy⟩ := sweepPicks_run held fields table array chains nowMs _ 0 drawnInside
  rw [ran]
  constructor
  · intro picked
    obtain ⟨idx, pick, x, mem, late, key, dangling, faults⟩ := busy (some_picked_iff.mp picked)
    exact ⟨x.key, key, ⟨idx, pick, x, mem, rfl, late⟩, dangling, faults⟩
  · intro unpicked
    exact idle fun idx pick x mem late => unpicked ⟨x.key, idx, pick, x, mem, rfl, late⟩

end ByteKV.SweepMemory
