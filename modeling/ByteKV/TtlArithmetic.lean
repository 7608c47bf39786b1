import ByteKV.StoreInvariant

/-! The arithmetic of deadlines: from the seconds of a SETEX or EXPIRE line to the stamp in
the expires table, and from there to what TTL and GET answer at later times. -/
namespace ByteKV.TtlArithmetic
open Config Database FileIo AofRecord ServerState AofAppend AofRewrite ServerRun Command CommandLine
open StepCases StoreInvariant ExpiringLog

def denoted (s : Bytes) : Int :=
  let t := s.dropWhile isSpace
  let negative := t.head? = some 45
  let t := if negative ∨ t.head? = some 43 then t.tail else t
  if negative then -digitsValue (t.takeWhile isDigit) else digitsValue (t.takeWhile isDigit)

theorem strtoll_value (s : Bytes) :
    (strtoll s).1 = max (-2 ^ 63) (min (denoted s) (2 ^ 63 - 1)) := by
  simp only [strtoll, denoted]
  generalize s.dropWhile isSpace = t
  generalize (if t.head? = some 45 ∨ t.head? = some 43 then t.tail else t) = unsigned
  split
  · rename_i none
    rw [none]
    simp [digitsValue]
  · rfl

theorem parseSeconds_denoted {s : Bytes} {seconds : Int} (parsed : parseSeconds s = some seconds) :
    0 < denoted s ∧ seconds = min (denoted s) (2 ^ 63 - 1) := by
  have value := strtoll_value s
  simp only [parseSeconds] at parsed
  split at parsed
  · cases parsed
  · rename_i accepted
    obtain rfl := Option.some.inj parsed
    rw [not_or, not_or] at accepted
    omega

def FitsI64 (nowRealtimeMs seconds : Int) : Prop := nowRealtimeMs + 1000 * seconds < 2 ^ 63

instance (nowRealtimeMs seconds : Int) : Decidable (FitsI64 nowRealtimeMs seconds) :=
  inferInstanceAs (Decidable (_ < _))

theorem expireTime_fits {nowRealtimeMs : Int} {s : Bytes} {seconds : Int} (now : 0 < nowRealtimeMs)
    (parsed : parseSeconds s = some seconds) (fits : FitsI64 nowRealtimeMs (denoted s)) :
    expireTime nowRealtimeMs seconds = nowRealtimeMs + 1000 * denoted s ∧
      0 < expireTime nowRealtimeMs seconds := by
  obtain ⟨pos, eq⟩ := parseSeconds_denoted parsed
  rw [FitsI64] at fits
  have exact : seconds = denoted s := by omega
  have value : expireTime nowRealtimeMs seconds = nowRealtimeMs + seconds * 1000 :=
    toI64_toU64 ⟨by omega, by omega⟩
  omega

/-- What the store says of a key with a deadline, before it and after it. -/
structure TtlExact (db : Db) (k : Bytes) (nowRealtimeMs seconds : Int) : Prop where
  noWrap : InI64 (seconds * 1000) ∧ InI64 (nowRealtimeMs + seconds * 1000)
  stored : db.expires.get k = some (nowRealtimeMs + 1000 * seconds)
  before : ∀ u, nowRealtimeMs ≤ u → u ≤ nowRealtimeMs + 1000 * seconds →
    (dbGetTtl db k u).2 = (nowRealtimeMs + 1000 * seconds - u) / 1000 ∧
      (dbGetTtl db k u).2 ≠ -1 ∧ (dbGetTtl db k u).2 ≠ -2 ∧ (dbGet db k u).2.isSome
  after : ∀ u, nowRealtimeMs + 1000 * seconds < u →
    (dbGetTtl db k u).2 = -2 ∧ (dbGet db k u).2 = none

theorem ttlExact_of_stored {db : Db} {k : Bytes} {nowRealtimeMs seconds : Int}
    (now : 0 < nowRealtimeMs)
    (pos : 0 < seconds) (fits : FitsI64 nowRealtimeMs seconds) (held : (db.keyspace.get k).isSome)
    (stored : db.expires.get k = some (nowRealtimeMs + 1000 * seconds)) :
    TtlExact db k nowRealtimeMs seconds := by
  rw [FitsI64] at fits
  obtain ⟨v, held⟩ := Option.isSome_iff_exists.mp held
  refine ⟨?_, stored, fun u _ early => ?_, fun u late => ?_⟩
  · simp only [InI64]
    omega
  · have live : ¬ nowRealtimeMs + 1000 * seconds < u := by omega
    have floor : (nowRealtimeMs + 1000 * seconds - u).tdiv 1000 =
        (nowRealtimeMs + 1000 * seconds - u) / 1000 := Int.tdiv_eq_ediv_of_nonneg (by omega)
    rw [dbGetTtl_value, dbGet_value]
    simp only [settle, cells_due, cells_val, stored, past_some, live, decide_false,
      Bool.false_eq_true, if_false, held, Option.isSome_some, and_true, floor, true_and]
    omega
  · rw [dbGetTtl_value, dbGet_value]
    simp only [settle, cells_due, stored, past_some, late, decide_true, if_true, and_self]

/-! The two commands. -/

/-- A line that sets a deadline: which command, its key, and its seconds as they are
written. -/
structure TtlRequest where
  op : AofOpcode
  key : Bytes
  seconds : Bytes
  deriving DecidableEq, Repr

def ttlRequest (payload : Bytes) : Option TtlRequest :=
  let argv := tokenizeCommand (cstr payload) maxTokens
  match lookupCommand (arg argv 0) with
  | some entry =>
      if arityWrong entry argv.length then none
      else match entry.proc with
        | .setex => some ⟨.setex, arg argv 1, arg argv 2⟩
        | .expire => some ⟨.expire, arg argv 1, arg argv 2⟩
        | _ => none
  | none => none

/-- EXPIRE turns down a key that is not there, and a stamp that has come out at zero or below. -/
def Refuses (db : Db) (q : TtlRequest) (expireAt : Int) : Prop :=
  q.op = .expire ∧ (expireAt ≤ 0 ∨ db.keyspace.get q.key = none)

theorem ttlRequest_record {payload : Bytes} {q : TtlRequest} (asks : ttlRequest payload = some q)
    {seconds : Int} (parsed : parseSeconds q.seconds = some seconds) (nowRealtimeMs : Int) :
    (q.op = .setex ∨ q.op = .expire) ∧ ∃ value, requestRecord nowRealtimeMs payload =
      some ⟨q.op, q.key, value, expireTime nowRealtimeMs seconds⟩ := by
  let argv := tokenizeCommand (cstr payload) maxTokens
  have bind : ttlRequest payload = (requestProc payload).bind fun
      | .setex => some ⟨.setex, arg argv 1, arg argv 2⟩
      | .expire => some ⟨.expire, arg argv 1, arg argv 2⟩
      | _ => none := by
    rw [← requestProc_bind]
    rfl
  rw [bind] at asks
  obtain ⟨proc, comes, asks⟩ := Option.bind_eq_some_iff.mp asks
  rw [requestRecord_bind, comes, Option.bind_some]
  cases proc with
  | setex =>
    obtain rfl := Option.some.inj asks
    refine ⟨Or.inl rfl, arg argv 3, ?_⟩
    rw [procRecord, parsed]
    rfl
  | expire =>
    obtain rfl := Option.some.inj asks
    refine ⟨Or.inr rfl, [], ?_⟩
    rw [procRecord, parsed]
    rfl
  | _ => cases asks

section Request
variable {h : Host} {payload : Bytes} {q : TtlRequest} {value : Bytes} {expireAt : Int}
  (kind : q.op = .setex ∨ q.op = .expire)
  (asks : requestRecord h.nowRealtimeMs payload = some ⟨q.op, q.key, value, expireAt⟩)
include kind asks

theorem ttl_answer_iff (io : RequestIo) :
    (commandExecute io h payload msgMax).2 = ascii "+OK\n" ↔ ¬ Refuses h.db q expireAt := by
  have took : accepted h payload = some ⟨q.op, q.key, value, expireAt⟩ ↔
      (replayDispatch h.db (Record.decoded ⟨q.op, q.key, value, expireAt⟩)).2 = true := by
    simp [accepted, asks, Option.filter]
  rw [mutation_response asks, took, Refuses]
  rcases kind with setex | expire
  · rw [setex]
    change (dbSetex h.db q.key value expireAt).2 = true ↔ _
    simp only [reduceCtorEq, false_and, not_false_eq_true, iff_true, dbSetex]
    split <;> rfl
  · rw [expire]
    change (dbKeyExpire h.db q.key expireAt).2 = true ↔ _
    simp only [dbKeyExpire, HashTable.Ht.exists_eq, Option.isSome_eq_false_iff,
      Option.isNone_iff_eq_none, true_and]
    split <;> simp_all

theorem ttl_stored (io : RequestIo) (pos : 0 < expireAt) (taken : ¬ Refuses h.db q expireAt) :
    ((commandExecute io h payload msgMax).1.db.keyspace.get q.key).isSome ∧
      (commandExecute io h payload msgMax).1.db.expires.get q.key = some expireAt := by
  rw [mutation_db asks]
  rcases kind with setex | expire
  · rw [setex]
    change ((dbSetex h.db q.key value expireAt).1.keyspace.get q.key).isSome ∧
      (dbSetex h.db q.key value expireAt).1.expires.get q.key = some expireAt
    simp [dbSetex, pos]
  · rw [Refuses, not_and, not_or] at taken
    obtain ⟨-, held⟩ := taken expire
    have there : (h.db.keyspace.get q.key).isSome := Option.isSome_iff_ne_none.mpr held
    rw [expire]
    change ((dbKeyExpire h.db q.key expireAt).1.keyspace.get q.key).isSome ∧
      (dbKeyExpire h.db q.key expireAt).1.expires.get q.key = some expireAt
    simp [dbKeyExpire, there, not_le.mpr pos]

end Request

/-- In every reachable store a SETEX or EXPIRE that is answered `+OK` sets the deadline it
should, exactly when the stamp does not wrap, or EXPIRE turns the key or the wrapped stamp
down. -/
theorem ttlExact_iff {config : ServerConfig} {disk : Disk} {nowMs nowRealtimeMs realtimeMs : Int}
    {bootIo : BootIo} {start : Host}
    (boot : initServer config disk nowMs nowRealtimeMs realtimeMs bootIo = some start)
    (events : List Event) (now : 0 < (run start events).nowRealtimeMs) (io : RequestIo)
    {payload : Bytes} {q : TtlRequest} (asks : ttlRequest payload = some q) {seconds : Int}
    (parsed : parseSeconds q.seconds = some seconds) :
    ((commandExecute io (run start events) payload msgMax).2 = ascii "+OK\n" →
        TtlExact (commandExecute io (run start events) payload msgMax).1.db q.key
          (run start events).nowRealtimeMs (denoted q.seconds)) ↔
      FitsI64 (run start events).nowRealtimeMs (denoted q.seconds) ∨
        Refuses (run start events).db q (expireTime (run start events).nowRealtimeMs seconds) := by
  have stamps := (storeOk_run boot events).store
  generalize run start events = h at now stamps ⊢
  obtain ⟨kind, value, record⟩ := ttlRequest_record asks parsed h.nowRealtimeMs
  rw [ttl_answer_iff kind record]
  constructor
  · intro exact
    by_contra neither
    rw [not_or] at neither
    have stored := (exact neither.2).stored
    have after : StoreOk (commandExecute io h payload msgMax).1.db.cells := by
      rw [mutation_db record, (dispatch_cells h.db _).1]
      exact stamps.apply (requestRecord_wellFormed record)
    have bound := (after.stamps _ _ stored).2.2
    exact neither.1 bound
  · rintro (fits | refused) taken
    · obtain ⟨eq, pos⟩ := expireTime_fits now parsed fits
      obtain ⟨held, stored⟩ := ttl_stored kind record io pos taken
      rw [eq] at stored
      exact ttlExact_of_stored now (parseSeconds_denoted parsed).1 fits held stored
    · exact absurd refused taken

def laterHost : Host := run (firstHost {}) [.tick 5 1000 {}]

def setexLine (seconds : String) : Bytes := ascii ("SETEX k " ++ seconds ++ " v")

theorem ttlExact_ten :
    (commandExecute {} laterHost (setexLine "10") msgMax).2 = ascii "+OK\n" ∧
      TtlExact (commandExecute {} laterHost (setexLine "10") msgMax).1.db (ascii "k") 1000 10 := by
  have answer : (commandExecute {} laterHost (setexLine "10") msgMax).2 = ascii "+OK\n" := by
    decide +kernel
  have asks : ttlRequest (setexLine "10") = some ⟨.setex, ascii "k", ascii "10"⟩ := by
    decide +kernel
  have parsed : parseSeconds (ascii "10") = some 10 := by decide +kernel
  have exact := (ttlExact_iff (firstHost_boot {}) [.tick 5 1000 {}] (by decide +kernel) {} asks
    parsed).mpr (Or.inl (by decide +kernel)) answer
  exact ⟨answer, exact⟩

theorem setex_wraps :
    (commandExecute {} laterHost (setexLine "10000000000000000") msgMax).2 = ascii "+OK\n" ∧
      (commandExecute {} laterHost (setexLine "10000000000000000") msgMax).1.db.expires.get
        (ascii "k") = none ∧
      ¬ TtlExact (commandExecute {} laterHost (setexLine "10000000000000000") msgMax).1.db
        (ascii "k") 1000 (denoted (ascii "10000000000000000")) := by
  have untimed : (commandExecute {} laterHost (setexLine "10000000000000000") msgMax).1.db.expires.get
      (ascii "k") = none := by decide +kernel
  refine ⟨by decide +kernel, untimed, fun exact => ?_⟩
  exact absurd (exact.stored.symm.trans untimed) (Option.some_ne_none _)

end ByteKV.TtlArithmetic
