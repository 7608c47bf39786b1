import ByteKV.SweepMemory
import ByteKV.Transition

/-! Sessions with the database, from `db_create` to `db_free`: any calls of db.h, with the
strings of the caller in buffers of its own. -/
namespace ByteKV.MemorySafety
open HashTable (HtEntry)
open Database (Db)
open Separation Assn HeapProgram TableMemory DatabaseMemory SweepMemory
open Transition (Along answers run)

/-- The calls of db.h; the sweep comes with the answers of `arc4random_uniform`. -/
inductive Call
  | set (key value : Bytes)
  | setex (key value : Bytes) (expireAt : Int)
  | get (key : Bytes) (nowMs : Int)
  | del (key : Bytes)
  | expire (key : Bytes) (expireAt : Int)
  | getTtl (key : Bytes) (nowMs : Int)
  | persist (key : Bytes)
  | sweep (sampleSize : Nat) (nowMs : Int) (draws : List Nat)
  deriving DecidableEq, Repr

inductive Answer
  | status (ok : Bool)
  | value (v : Option Bytes)
  | number (n : Int)
  deriving DecidableEq, Repr

def perform (malloc : Allocator Ptr Block) (db : Ptr) : Call → Proc Answer
  | .set key value => do
    let k ← alloc malloc key
    let v ← alloc malloc value
    let ok ← dbSet malloc db k v
    free k
    free v
    return .status ok
  | .setex key value expireAt => do
    let k ← alloc malloc key
    let v ← alloc malloc value
    let ok ← dbSetex malloc db k v expireAt
    free k
    free v
    return .status ok
  | .get key nowMs => do
    let k ← alloc malloc key
    let value ← dbGet db k nowMs >>= readStr
    free k
    return .value value
  | .del key => do
    let k ← alloc malloc key
    let ok ← dbDel db k
    free k
    return .status ok
  | .expire key expireAt => do
    let k ← alloc malloc key
    let ok ← dbKeyExpire malloc db k expireAt
    free k
    return .status ok
  | .getTtl key nowMs => do
    let k ← alloc malloc key
    let ttl ← dbGetTtl db k nowMs
    free k
    return .number ttl
  | .persist key => do
    let k ← alloc malloc key
    let ok ← dbPersist db k
    free k
    return .status ok
  | .sweep sampleSize nowMs draws => do
    let cleaned ← dbActiveSweep db sampleSize nowMs draws
    return .number cleaned

def opened (malloc : Allocator Ptr Block) (nowMs : Int) (calls : List Call) :
    Proc (Ptr × List Answer) := do
  let db ← dbCreate malloc nowMs
  let answers ← calls.mapM (perform malloc db)
  return (db, answers)

def session (malloc : Allocator Ptr Block) (nowMs : Int) (calls : List Call) :
    Proc (List Answer) := do
  let s ← opened malloc nowMs calls
  dbFree s.1
  return s.2

def step (db : Db) : Call → Db × Answer
  | .set key value => ((Database.dbSet db key value).1, .status (Database.dbSet db key value).2)
  | .setex key value expireAt =>
      ((Database.dbSetex db key value expireAt).1, .status (Database.dbSetex db key value expireAt).2)
  | .get key nowMs => ((Database.dbGet db key nowMs).1, .value (Database.dbGet db key nowMs).2)
  | .del key => ((Database.dbDel db key).1, .status (Database.dbDel db key).2)
  | .expire key expireAt =>
      ((Database.dbKeyExpire db key expireAt).1, .status (Database.dbKeyExpire db key expireAt).2)
  | .getTtl key nowMs =>
      ((Database.dbGetTtl db key nowMs).1, .number (Database.dbGetTtl db key nowMs).2)
  | .persist key => ((Database.dbPersist db key).1, .status (Database.dbPersist db key).2)
  | .sweep sampleSize nowMs draws =>
      ((Database.dbActiveSweep db sampleSize nowMs draws id).1,
        .number (Database.dbActiveSweep db sampleSize nowMs draws id).2)

def Drawn (db : Db) : Call → Prop
  | .sweep _ _ draws => DrawsInside db draws
  | _ => True

def Picks (db : Db) : Call → Prop
  | .sweep sampleSize nowMs draws => ∃ k, ActiveSweep.Picked db sampleSize nowMs draws k
  | _ => False

instance : (db : Db) → (c : Call) → Decidable (Drawn db c)
  | db, .sweep _ _ draws => inferInstanceAs (Decidable (∀ idx ∈ draws, idx < db.expires.raw.size))
  | _, .set .. | _, .setex .. | _, .get .. | _, .del .. => .isTrue trivial
  | _, .expire .. | _, .getTtl .. | _, .persist .. => .isTrue trivial

instance : (db : Db) → (c : Call) → Decidable (Picks db c)
  | _, .sweep .. => decidable_of_iff' _ some_picked_iff
  | _, .set .. | _, .setex .. | _, .get .. | _, .del .. => .isFalse id
  | _, .expire .. | _, .getTtl .. | _, .persist .. => .isFalse id

def Sound (db : Db) (c : Call) : Prop := Drawn db c ∧ ¬ Picks db c

instance (db : Db) (c : Call) : Decidable (Sound db c) := inferInstanceAs (Decidable (_ ∧ _))

def next (db : Db) (c : Call) : Db := (step db c).1

/-! A sweep that picks no expired key. -/

section Idle
variable (released : Bytes → Bytes) {nowMs : Int} {db : Db}

theorem sweepChain_idle (chain : List (HtEntry Int)) (cleaned : Nat)
    (later : ∀ e ∈ chain, db.expires.get e.key = some e.val ∧ ¬ e.val < nowMs) :
    Database.sweepChain released nowMs chain (db, cleaned) = (db, cleaned) := by
  induction chain with
  | nil => rfl
  | cons e next ih =>
    obtain ⟨due, early⟩ := later e List.mem_cons_self
    have visit : Database.dbExpireCleanThrough db e.key (released e.key) nowMs = (db, false) := by
      rw [ActiveSweep.dbExpireCleanThrough_eq, due, ExpiringLog.past_some]
      exact if_neg (by simpa using early)
    rw [Database.sweepChain, visit]
    exact ih fun x mem => later x (List.mem_cons_of_mem e mem)

theorem sweepPicks_idle (picks : List Nat) (cleaned : Nat)
    (later : ∀ idx ∈ picks, ∀ e ∈ db.expires.getBucket idx, ¬ e.val < nowMs) :
    Database.sweepPicks released nowMs picks (db, cleaned) = (db, cleaned) := by
  induction picks with
  | nil => rfl
  | cons idx picks ih =>
    have swept := sweepChain_idle released (db.expires.getBucket idx) cleaned fun e mem =>
      ⟨((ActiveSweep.mem_getBucket db.expires).mp mem).1, later idx List.mem_cons_self e mem⟩
    rw [Database.sweepPicks, swept]
    exact ih fun i mem => later i (List.mem_cons_of_mem idx mem)

theorem dbActiveSweep_idle {sampleSize : Nat} {draws : List Nat}
    (unpicked : ¬ ∃ k, ActiveSweep.Picked db sampleSize nowMs draws k) :
    Database.dbActiveSweep db sampleSize nowMs draws released = (db, 0) := by
  unfold Database.dbActiveSweep
  split
  · rfl
  · exact sweepPicks_idle released _ 0 fun idx picked e mem late =>
      unpicked ⟨e.key, idx, picked, e, mem, rfl, late⟩

end Idle

section Session
variable {malloc : Allocator Ptr Block} {p : Ptr} {db : Db}

theorem with_key (ample : malloc.Ample) {β : Type} {key : Bytes} {f : Ptr → Proc β} {db' : Db}
    {b : β} (called : ∀ k, Triple (dbAt p db * cell k key) (f k)
      fun x => fact (x = b) * (dbAt p db' * cell k key)) {a : Answer} {g : β → Answer}
    (eq : g b = a) : Triple (dbAt p db) (do
        let k ← alloc malloc key
        let x ← f k
        free k
        return g x)
      fun x => fact (x = a) * dbAt p db' := by
  refine .alloc ample fun k _ => ?_
  rw [mul_comm]
  refine .bind (called k) fun x => .of_fact fun same => .free (.done ?_)
  exact le_fact_mul (by rw [same, eq]) le_rfl

theorem with_pair (ample : malloc.Ample) {key value : Bytes} {f : Ptr → Ptr → Proc Bool} {db' : Db}
    (called : ∀ k v, Triple (dbAt p db * (cell k key * cell v value)) (f k v)
      fun x => fact (x = true) * (dbAt p db' * (cell k key * cell v value))) :
    Triple (dbAt p db) (do
        let k ← alloc malloc key
        let v ← alloc malloc value
        let ok ← f k v
        free k
        free v
        return Answer.status ok)
      fun x => fact (x = .status true) * dbAt p db' := by
  refine .alloc ample fun k _ => .alloc ample fun v _ => ?_
  refine .of_le (le_of_eq ?_) (.bind (called k v) fun x => .of_fact fun same => ?_)
  · ac_rfl
  · exact .free (.free (.done (le_fact_mul (by rw [same]) le_rfl)))

theorem perform_spec (ample : malloc.Ample) {c : Call} (inside : Drawn db c) (idle : ¬ Picks db c) :
    Triple (dbAt p db) (perform malloc p c)
      fun a => fact (a = (step db c).2) * dbAt p (step db c).1 := by
  cases c with
  | set key value => exact with_pair ample fun k v => dbSet_spec ample value
  | setex key value expireAt =>
    have done : (Database.dbSetex db key value expireAt).2 = true := by
      unfold Database.dbSetex
      split <;> rfl
    rw [step, done]
    exact with_pair ample fun k v => dbSetex_spec ample value expireAt
  | get key nowMs => exact with_key ample (fun k => dbGet_spec nowMs) rfl
  | del key => exact with_key ample (fun k => dbDel_spec) rfl
  | expire key expireAt => exact with_key ample (fun k => dbKeyExpire_spec ample expireAt) rfl
  | getTtl key nowMs => exact with_key ample (fun k => dbGetTtl_spec nowMs) rfl
  | persist key => exact with_key ample (fun k => dbPersist_spec) rfl
  | sweep sampleSize nowMs draws =>
    have nothing := dbActiveSweep_idle id idle
    rw [step, nothing]
    refine .of_reads fun m held => ⟨_, ?_, rfl⟩
    rw [perform, bind_run ((dbActiveSweep_run held sampleSize nowMs inside).2 idle)]
    rfl

theorem calls_spec (ample : malloc.Ample) {calls : List Call} (sound : Along next Sound db calls) :
    Triple (dbAt p db) (calls.mapM (perform malloc p))
      fun as => fact (as = answers step db calls) * dbAt p (run next db calls) := by
  induction calls generalizing db with
  | nil => exact .done (le_fact_mul rfl le_rfl)
  | cons c calls ih =>
    obtain ⟨⟨inside, idle⟩, later⟩ := sound
    rw [List.mapM_cons]
    refine .bind (perform_spec ample inside idle) fun a => .of_fact fun first => ?_
    refine .bind (ih later) fun as => .of_fact fun others => .done (le_fact_mul ?_ le_rfl)
    rw [first, others]
    rfl

end Session

section Sessions
variable {malloc : Allocator Ptr Block} {nowMs : Int}

theorem opened_spec (ample : malloc.Ample) {calls : List Call}
    (sound : Along next Sound (Database.dbCreate nowMs) calls) :
    Triple 1 (opened malloc nowMs calls) fun s =>
      fact (s.2 = answers step (Database.dbCreate nowMs) calls) *
        dbAt s.1 (run next (Database.dbCreate nowMs) calls) := by
  refine .bind (dbCreate_spec ample nowMs) fun p => ?_
  exact .bind (calls_spec ample sound) fun as => .of_fact fun same => .done (le_fact_mul same le_rfl)

theorem session_spec (ample : malloc.Ample) {calls : List Call}
    (sound : Along next Sound (Database.dbCreate nowMs) calls) :
    Triple 1 (session malloc nowMs calls)
      fun as => fact (as = answers step (Database.dbCreate nowMs) calls) * 1 := by
  refine .bind (opened_spec ample sound) fun s => .of_fact fun same => ?_
  exact .bind dbFree_spec fun _ => .done (le_fact_mul same le_rfl)

def above : Allocator Ptr Block where
  pick m := some (m.heap.keys.sup id + 1)
  fresh {m a} picked := by
    obtain rfl := Option.some.inj picked
    refine ⟨Nat.succ_ne_zero _, fun mem => ?_⟩
    exact absurd (Finset.le_sup (f := id) (Finmap.mem_keys.mpr mem)) (Nat.not_succ_le_self _)

theorem above_ample : above.Ample := fun _ => rfl

/-- At any time the database takes five blocks, three for each key with its value and two for
each key with its deadline. -/
theorem opened_blocks (ample : malloc.Ample) {calls : List Call}
    (sound : Along next Sound (Database.dbCreate nowMs) calls) (rest : Heap Ptr Block) (n : Nat) :
    ∃ p, ∃ h : Heap Ptr Block, ∃ n', opened malloc nowMs calls ⟨rest, n⟩ =
        some (.ok ((p, answers step (Database.dbCreate nowMs) calls), ⟨h ∪ rest, n'⟩)) ∧
      h.Disjoint rest ∧ h.keys.card =
        5 + 3 * (run next (Database.dbCreate nowMs) calls).keyspace.raw.used +
          2 * (run next (Database.dbCreate nowMs) calls).expires.raw.used := by
  obtain ⟨⟨p, as⟩, h, n', ran, apart, held⟩ := (opened_spec ample sound).from_nothing rest n
  obtain ⟨rfl, stored⟩ := mem_fact_mul.mp held
  exact ⟨p, h, n', ran, apart, dbAt_sized p _ h stored⟩

theorem opened_blocks_deleted : ∃ p, ∃ h : Heap Ptr Block, ∃ n', opened above 0
      [.setex (ascii "k") (ascii "v") 5, .set (ascii "a") (ascii "b"), .persist (ascii "k"),
        .del (ascii "k")] ⟨∅, 0⟩ =
        some (.ok ((p, [.status true, .status true, .status true, .status true]), ⟨h ∪ ∅, n'⟩)) ∧
      h.Disjoint ∅ ∧ h.keys.card = 8 :=
  opened_blocks above_ample (by decide +kernel) ∅ 0

/-- The first sweep that picks an expired key is the end of the session, whatever was to follow:
it comes to a key that stands in expires, frees it, and reads it. -/
theorem session_faults (ample : malloc.Ample) {before : List Call}
    (sound : Along next Sound (Database.dbCreate nowMs) before) {sampleSize : Nat} {sweepMs : Int}
    {draws : List Nat} (inside : DrawsInside (run next (Database.dbCreate nowMs) before) draws)
    (picks : ∃ k, ActiveSweep.Picked (run next (Database.dbCreate nowMs) before) sampleSize sweepMs
      draws k) (after : List Call) (rest : Heap Ptr Block) (n : Nat) :
    ∃ p key k m, opened malloc nowMs before ⟨rest, n⟩ =
        some (.ok ((p, answers step (Database.dbCreate nowMs) before), m)) ∧
      ActiveSweep.Picked (run next (Database.dbCreate nowMs) before) sampleSize sweepMs draws k ∧
      Dangles p (run next (Database.dbCreate nowMs) before) m k key ∧
      session malloc nowMs (before ++ .sweep sampleSize sweepMs draws :: after) ⟨rest, n⟩ =
        some (.error (.read key)) := by
  obtain ⟨⟨p, as⟩, h, n', ran, apart, held⟩ := (opened_spec ample sound).from_nothing rest n
  obtain ⟨rfl, stored⟩ := mem_fact_mul.mp held
  obtain ⟨k, key, picked, dangling, faults⟩ := (dbActiveSweep_run (m := ⟨h ∪ rest, n'⟩)
    (mem_within.mpr ⟨h, rest, apart, rfl, stored⟩) sampleSize sweepMs inside).1 picks
  refine ⟨p, key, k, _, ran, picked, dangling, ?_⟩
  obtain ⟨_, m₁, created, served⟩ := bind_ok ran
  obtain ⟨_, m₂, called, returned⟩ := bind_ok served
  obtain ⟨out, rfl⟩ := Prod.mk.inj (Except.ok.inj (Option.some.inj returned))
  obtain ⟨rfl, rfl⟩ := Prod.mk.inj out
  rw [session, opened]
  simp only [bind_assoc, pure_bind]
  rw [bind_run created, List.mapM_append]
  simp only [bind_assoc, List.mapM_cons]
  rw [bind_run called, perform]
  simp only [bind_assoc]
  exact bind_faults faults

theorem session_faults_lapsed : ∃ p key k m,
    opened above 0 [.setex (ascii "k") (ascii "v") 5] ⟨∅, 0⟩ = some (.ok ((p, [.status true]), m)) ∧
      ActiveSweep.Picked (next (Database.dbCreate 0) (.setex (ascii "k") (ascii "v") 5)) 1 9
        [0, 1, 2, 3] k ∧
      Dangles p (next (Database.dbCreate 0) (.setex (ascii "k") (ascii "v") 5)) m k key ∧
      session above 0 ([.setex (ascii "k") (ascii "v") 5] ++
        .sweep 1 9 [0, 1, 2, 3] :: [.get (ascii "k") 9]) ⟨∅, 0⟩ = some (.error (.read key)) := by
  have picks : Picks (run next (Database.dbCreate 0) [.setex (ascii "k") (ascii "v") 5])
      (.sweep 1 9 [0, 1, 2, 3]) := by decide +kernel
  have inside : Drawn (run next (Database.dbCreate 0) [.setex (ascii "k") (ascii "v") 5])
      (.sweep 1 9 [0, 1, 2, 3]) := by decide +kernel
  exact session_faults above_ample (by decide +kernel) inside picks _ ∅ 0

end Sessions

end ByteKV.MemorySafety
