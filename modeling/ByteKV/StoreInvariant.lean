import ByteKV.RewriteInvariant

/-! What the tables hold, in the parent and in its child. Whatever is true of an
empty map and survives every update and every deletion is true of them on every
run, from any log the server may have started with. -/
namespace ByteKV.StoreInvariant
open Config Database HashTable FileIo AofRecord AofLoad ServerState AofAppend AofRewrite ServerRun
open StepCases RewriteInvariant Command ExpiringLog

/-- `P` holds of the empty map and survives the records that satisfy `R`, and what
takes entries away. -/
structure Kept (R : Record → Prop) (P : Cells Bytes Bytes Int → Prop) : Prop where
  empty : P .empty
  accept : ∀ {c : Cells Bytes Bytes Int} {r : Record}, R r → P c → P (r.entry.apply c).1
  refuse : ∀ {c : Cells Bytes Bytes Int} {r : Record}, (r.entry.apply c).2 = false → P c →
    P (r.entry.apply c).1
  erase : ∀ {c : Cells Bytes Bytes Int} (k : Bytes), P c → P (c.erase k)

structure Sub (c c' : Cells Bytes Bytes Int) : Prop where
  val : ∀ k v, c'.val k = some v → c.val k = some v
  due : ∀ k d, c'.due k = some d → c.due k = some d

theorem erase_sub (c : Cells Bytes Bytes Int) (k : Bytes) : Sub c (c.erase k) := by
  refine ⟨fun j v hv => ?_, fun j d hd => ?_⟩
  · by_cases hj : j = k <;> simp_all [Cells.erase]
  · by_cases hj : j = k <;> simp_all [Cells.erase]

theorem delThrough_sub (db : Db) (key released : Bytes) :
    Sub db.cells (dbDelThrough db key released).1.cells :=
  ⟨(dbDelThrough_cells db key released).1, (dbDelThrough_cells db key released).2⟩

theorem Kept.of_sub {R : Record → Prop} {P : Cells Bytes Bytes Int → Prop} (empty : P .empty)
    (accept : ∀ {c : Cells Bytes Bytes Int} {r : Record}, R r → P c → P (r.entry.apply c).1)
    (sub : ∀ {c c' : Cells Bytes Bytes Int}, Sub c c' → P c → P c') : Kept R P where
  empty := empty
  accept := accept
  refuse := fun failed h =>
    sub ⟨(Entry.apply_refused_sub failed).1, (Entry.apply_refused_sub failed).2⟩ h
  erase := fun k h => sub (erase_sub _ k) h

/-- What the parsers promise of every record. -/
def WellFormed (r : Record) : Prop := NulFree r.key ∧ NulFree r.value ∧ InI64 r.expireAt

/-- Strings without NULs, and positive 64-bit deadlines. -/
structure StoreOk (c : Cells Bytes Bytes Int) : Prop where
  strings : ∀ k v, c.val k = some v → NulFree k ∧ NulFree v
  stamps : ∀ k d, c.due k = some d → 0 < d ∧ InI64 d

namespace StoreOk
variable {c : Cells Bytes Bytes Int}

theorem sub {c' : Cells Bytes Bytes Int} (sub : Sub c c') (h : StoreOk c) : StoreOk c' :=
  ⟨fun k v hv => h.strings k v (sub.val k v hv), fun k d hd => h.stamps k d (sub.due k d hd)⟩

theorem apply {r : Record} (sound : WellFormed r) (h : StoreOk c) :
    StoreOk (r.entry.apply c).1 := by
  obtain ⟨key, value, stamp⟩ := sound
  constructor
  · intro k v hv
    by_cases hk : k = r.key
    · subst hk
      rcases Entry.apply_val_self (e := r.entry) hv with old | new
      · exact h.strings _ v old
      · exact ⟨key, Record.entry_val new ▸ value⟩
    · exact h.strings k v ((r.entry.apply_of_ne c hk).1 ▸ hv)
  · intro k d hd
    by_cases hk : k = r.key
    · subst hk
      rcases Entry.apply_due_self (e := r.entry) hd with old | new
      · exact h.stamps _ d old
      · obtain ⟨eq, pos⟩ := Record.entry_due new
        exact ⟨pos, eq ▸ stamp⟩
    · exact h.stamps k d ((r.entry.apply_of_ne c hk).2 ▸ hd)

theorem kept : Kept WellFormed StoreOk :=
  .of_sub ⟨by simp [Cells.empty], by simp [Cells.empty]⟩ apply sub

end StoreOk

theorem consistent_kept : Kept (fun _ => True) Cells.Consistent where
  empty := fun _ _ => rfl
  accept := fun _ h => Entry.apply_consistent _ h
  refuse := fun _ h => Entry.apply_consistent _ h
  erase := fun k h => Cells.erase_consistent h k

structure Stores (P : Cells Bytes Bytes Int → Prop) (h : Host) : Prop where
  store : P h.db.cells
  fork : ∀ c, h.child = some c → P c.db.cells

/-- The deletions of a sweep keep `P`, whatever the freed keys read as. -/
def SweepKeeps (P : Cells Bytes Bytes Int → Prop) (h : Host) : Event → Prop
  | .tick _ nowRealtimeMs io => ∀ (db : Db) key, past nowRealtimeMs (h.db.cells.due key) →
      P db.cells → P (dbDelThrough db key (io.released key)).1.cells
  | _ => True

/-- The sweep finds the keys it has freed unchanged. -/
def Unclobbered (h : Host) : Event → Prop
  | .tick _ nowRealtimeMs io => ∀ key, past nowRealtimeMs (h.db.cells.due key) →
      io.released key = key
  | _ => True

theorem sweepKeeps_of_sub {P : Cells Bytes Bytes Int → Prop}
    (sub : ∀ {c c' : Cells Bytes Bytes Int}, Sub c c' → P c → P c') (h : Host) (e : Event) :
    SweepKeeps P h e := by
  cases e with
  | tick nowMs nowRealtimeMs io => exact fun db key _ ok => sub (delThrough_sub db key _) ok
  | _ => trivial

theorem Kept.sweepKeeps {R : Record → Prop} {P : Cells Bytes Bytes Int → Prop} (kept : Kept R P)
    {h : Host} {e : Event} (same : Unclobbered h e) : SweepKeeps P h e := by
  cases e with
  | tick nowMs nowRealtimeMs io =>
    intro db key passed ok
    rw [same key passed, dbDelThrough_self_cells]
    exact kept.erase key ok
  | _ => trivial

theorem mutation_asks {h : Host} {payload : Bytes} {io : RequestIo} {r : Record}
    (makes : mutation h (.request payload io) = some r) :
    requestRecord h.nowRealtimeMs payload = some r :=
  (mutation_iff.mp makes).2.1

theorem mutation_wellFormed {h : Host} {e : Event} {r : Record} (makes : mutation h e = some r) :
    WellFormed r := by
  cases e with
  | request payload io => exact requestRecord_wellFormed (mutation_asks makes)
  | _ => simp [mutation] at makes

theorem dispatch_cells (db : Db) (r : Record) :
    (replayDispatch db r.decoded).1.cells = (r.entry.apply db.cells).1 ∧
      (replayDispatch db r.decoded).2 = (r.entry.apply db.cells).2 :=
  Prod.mk.inj (replayDispatch_cells db r)

/-- What a step does to the store: it takes a record, refuses one, erases a key whose
deadline has passed, or sweeps. -/
theorem step_store {P : Cells Bytes Bytes Int → Prop} {h : Host} {e : Event} (holds : P h.db.cells)
    (accept : ∀ r, mutation h e = some r → P (r.entry.apply h.db.cells).1)
    (refuse : ∀ r : Record, (r.entry.apply h.db.cells).2 = false → P (r.entry.apply h.db.cells).1)
    (erase : ∀ k, P (h.db.cells.erase k)) (sweeps : SweepKeeps P h e) : P (step h e).db.cells := by
  have out := stepped h e
  generalize step h e = h' at out ⊢
  cases out with
  | quiet _ q => exact q.db ▸ holds
  | @mutated payload io r asks makes stored =>
    have frame := (aofAppend_frame io.append
      { h with db := (replayDispatch h.db r.decoded).1 } r).1
    rw [frame.db, (dispatch_cells h.db r).1]
    exact accept r makes
  | refused r asks makes failed =>
    obtain ⟨cells, ok⟩ := dispatch_cells h.db r
    rw [cells]
    exact refuse r (ok ▸ failed)
  | cleaned key makes =>
    rw [(dbExpireClean_cells h.db key h.nowRealtimeMs).2]
    split
    · exact erase key
    · exact holds
  | started makes idle => exact holds
  | @ticked nowMs nowRealtimeMs io =>
    obtain ⟨g, hg, outcome⟩ := beforeSleep_cases nowMs io h (I := fun g => P g.db.cells) holds
      (fun g key due _ hg => sweeps g.db key due hg) (fun g g' q hg => q.db ▸ hg)
    exact outcome.db ▸ hg
  | childStepped c child => exact holds
  | childChanged makes c c' child same q => exact q.db ▸ holds

theorem step_child {h : Host} {e : Event} {c' : Child} (hc' : (step h e).child = some c') :
    (∃ c, h.child = some c ∧ c'.db = c.db) ∨ c'.db = (step h e).db := by
  have out := stepped h e
  generalize step h e = h' at out hc' ⊢
  cases out with
  | quiet _ q => exact Or.inl ⟨c', q.child ▸ hc', rfl⟩
  | @mutated payload io r asks makes stored =>
    obtain ⟨c, hc, same⟩ := (aofAppend_frame io.append
      { h with db := (replayDispatch h.db r.decoded).1 } r).2.child hc'
    exact Or.inl ⟨c, hc, same.db⟩
  | refused r asks makes failed => exact Or.inl ⟨c', hc', rfl⟩
  | cleaned key makes => exact Or.inl ⟨c', hc', rfl⟩
  | started makes idle =>
    obtain rfl := Option.some.inj hc'
    exact Or.inr rfl
  | @ticked nowMs nowRealtimeMs io =>
    obtain ⟨g, child, outcome⟩ := beforeSleep_cases nowMs io h (I := fun g => g.child = h.child) rfl
      (fun g key due _ hg => hg) (fun g g' q hg => q.child.trans hg)
    cases outcome with
    | quiet q => exact Or.inl ⟨c', child ▸ q.child ▸ hc', rfl⟩
    | started idle eq =>
      rw [eq] at hc' ⊢
      obtain rfl := Option.some.inj hc'
      exact Or.inr rfl
    | ended busy stopped => simp [stopped.child] at hc'
    | installed c ino done => simp [done.child'] at hc'
  | @childStepped realtimeMs io c hc =>
    obtain rfl := Option.some.inj hc'
    exact Or.inl ⟨c, hc, (childStep_same realtimeMs io c h.disk).2.1⟩
  | childChanged makes c d hc same q =>
    obtain rfl : d = c' := Option.some.inj (q.child.symm.trans hc')
    exact Or.inl ⟨c, hc, same.db⟩

theorem mutation_stored {h : Host} {e : Event} {r : Record} (makes : mutation h e = some r) :
    (r.entry.apply h.db.cells).2 = true := by
  cases e with
  | request payload io => exact (dispatch_cells h.db r).2 ▸ (mutation_iff.mp makes).2.2
  | _ => simp [mutation] at makes

section Step
variable {R : Record → Prop} {P : Cells Bytes Bytes Int → Prop} (kept : Kept R P)
include kept

theorem Kept.dispatch {db : Db} {r : Record} (ok : R r) (h : P db.cells) :
    P (replayDispatch db r.decoded).1.cells := by
  rw [(dispatch_cells db r).1]
  exact kept.accept ok h

omit kept in
theorem Stores.cron {h h' : Host} (stores : Stores P h) (outcome : CronOutcome h h') :
    Stores P h' := by
  cases outcome with
  | quiet q => exact ⟨q.db ▸ stores.store, fun c hc => stores.fork c (q.child ▸ hc)⟩
  | started idle eq =>
    subst eq
    refine ⟨stores.store, ?_⟩
    rintro _ ⟨rfl⟩
    exact stores.store
  | ended busy stopped => exact ⟨stopped.db ▸ stores.store, fun c hc => by simp [stopped.child] at hc⟩
  | installed c ino done => exact ⟨done.db ▸ stores.store, fun c hc => by simp [done.child'] at hc⟩

theorem stores_step {h : Host} {e : Event} (stores : Stores P h)
    (records : ∀ r ∈ mutation h e, R r) (sweeps : SweepKeeps P h e) : Stores P (step h e) := by
  have store : P (step h e).db.cells := step_store stores.store
    (fun r makes => kept.accept (records r makes) stores.store)
    (fun r failed => kept.refuse failed stores.store) (fun k => kept.erase k stores.store) sweeps
  refine ⟨store, fun c' hc' => ?_⟩
  rcases step_child hc' with ⟨c, hc, same⟩ | forked
  · exact same ▸ stores.fork c hc
  · exact forked ▸ store

theorem stores_run {h : Host} {events : List Event} (stores : Stores P h)
    (ok : Transition.Along step (fun g e => (∀ r ∈ mutation g e, R r) ∧ SweepKeeps P g e) h events) :
    Stores P (run h events) :=
  Transition.run_invariant (fun _ _ stores ok => stores_step kept stores ok.1 ok.2) stores ok

/-! The start: an empty store, or what replay made of a log. -/

omit kept in
theorem replayDispatch_record (d : Decoded) :
    (∃ r : Record, r.decoded = d) ∨ ∀ db, replayDispatch db d = (db, false) := by
  obtain ⟨opcode, key, val, expireAt⟩ := d
  unfold replayDispatch
  split
  · exact Or.inl ⟨⟨.set, key, val, expireAt⟩, by simp_all [Record.decoded, AofOpcode.code]⟩
  · exact Or.inl ⟨⟨.del, key, val, expireAt⟩, by simp_all [Record.decoded, AofOpcode.code]⟩
  · exact Or.inl ⟨⟨.setex, key, val, expireAt⟩, by simp_all [Record.decoded, AofOpcode.code]⟩
  · exact Or.inl ⟨⟨.expire, key, val, expireAt⟩, by simp_all [Record.decoded, AofOpcode.code]⟩
  · exact Or.inl ⟨⟨.persist, key, val, expireAt⟩, by simp_all [Record.decoded, AofOpcode.code]⟩
  · exact Or.inr fun _ => rfl

theorem initServer_stores (all : ∀ r, WellFormed r → R r) {config : ServerConfig} {disk : Disk}
    {nowMs nowRealtimeMs realtimeMs : Int} {io : BootIo} {h : Host}
    (boot : initServer config disk nowMs nowRealtimeMs realtimeMs io = some h) : Stores P h := by
  have empty : P (dbCreate nowMs).cells := (dbCreate_cells nowMs).symm ▸ kept.empty
  obtain ⟨db, disk', ino, lastSize, rfl, loaded, -⟩ := initServer_cases boot
  have ok : P db.cells := by
    rcases loaded with rfl | ⟨file, out, load, rfl⟩
    · exact empty
    · refine aofLoad_induct (I := fun db => P db.cells) (fun db d key val stamp hdb => ?_) empty load
      rcases replayDispatch_record d with ⟨r, rfl⟩ | refused
      · exact kept.dispatch (all r ⟨key, val, stamp⟩) hdb
      · rw [refused]
        exact hdb
  exact ⟨ok, fun c hc => by simp [emptyHost] at hc⟩

end Step

theorem storeOk_run {config : ServerConfig} {disk : Disk} {nowMs nowRealtimeMs realtimeMs : Int}
    {io : BootIo} {h : Host}
    (boot : initServer config disk nowMs nowRealtimeMs realtimeMs io = some h) (events : List Event) :
    Stores StoreOk (run h events) :=
  Transition.run_invariant_always
    (fun g e stores => stores_step StoreOk.kept stores (fun _ makes => mutation_wellFormed makes)
      (sweepKeeps_of_sub StoreOk.sub g e))
    (initServer_stores StoreOk.kept (fun _ ok => ok) boot) events

end ByteKV.StoreInvariant
