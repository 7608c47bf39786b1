import ByteKV.AofRewrite
import ByteKV.CommandLine

/-! The command table and the handlers of command.c. A request is executed against
the whole host, since a mutation is logged and BGREWRITEAOF forks. -/
namespace ByteKV.Command
open Config Database HashTable AofRecord ServerState AofAppend AofRewrite CommandLine

structure RequestIo where
  append : AppendIo := {}
  start : StartIo := {}

def arg (argv : List Bytes) (i : Nat) : Bytes := argv.getD i []

def cmdGet (h : Host) (argv : List Bytes) (resp : Respbuf) : Host × Respbuf :=
  let (db, val) := dbGet h.db (arg argv 1) h.nowRealtimeMs
  let h := { h with db := db }
  match val with
  | none => (h, respAdd resp (ascii "-ERR key not found\n"))
  | some val => (h, respAddf resp (ascii "+" ++ val ++ ascii "\n"))

def cmdTtl (h : Host) (argv : List Bytes) (resp : Respbuf) : Host × Respbuf :=
  let (db, ttl) := dbGetTtl h.db (arg argv 1) h.nowRealtimeMs
  let h := { h with db := db }
  if ttl = -2 then (h, respAdd resp (ascii "-ERR key not found\n"))
  else if ttl = -1 then (h, respAdd resp (ascii "-ERR key does not have TTL\n"))
  else
    (h, respAddf resp
      (ascii "+ Key - " ++ arg argv 1 ++ ascii "\nTTL = " ++ decimal ttl ++ ascii "\n"))

/-- What the five mutating handlers share once they have called the database:
`aof_append`, whose status they do not look at, and the answer. -/
def mutate (io : AppendIo) (h : Host) (r : Record) (err : Bytes) (resp : Respbuf) :
    Db × Bool → Host × Respbuf
  | (db, false) => ({ h with db := db }, respAdd resp err)
  | (db, true) => ((aofAppend io { h with db := db } r).1, respAdd resp (ascii "+OK\n"))

def cmdSet (io : AppendIo) (h : Host) (argv : List Bytes) (resp : Respbuf) : Host × Respbuf :=
  let key := arg argv 1
  let value := arg argv 2
  mutate io h ⟨.set, key, value, 0⟩ (ascii "-ERR SET COMMAND\n") resp (dbSet h.db key value)

def cmdSetex (io : AppendIo) (h : Host) (argv : List Bytes) (resp : Respbuf) : Host × Respbuf :=
  let key := arg argv 1
  let value := arg argv 3
  match parseSeconds (arg argv 2) with
  | none => (h, respAdd resp (ascii "-ERR invalid expire time\n"))
  | some seconds =>
      let expireAt := expireTime h.nowRealtimeMs seconds
      mutate io h ⟨.setex, key, value, expireAt⟩ (ascii "-ERR SETEX COMMAND\n") resp
        (dbSetex h.db key value expireAt)

def cmdExpire (io : AppendIo) (h : Host) (argv : List Bytes) (resp : Respbuf) : Host × Respbuf :=
  let key := arg argv 1
  match parseSeconds (arg argv 2) with
  | none => (h, respAdd resp (ascii "-ERR invalid expire time\n"))
  | some seconds =>
      let expireAt := expireTime h.nowRealtimeMs seconds
      mutate io h ⟨.expire, key, [], expireAt⟩ (ascii "-ERR EXPIRE COMMAND\n") resp
        (dbKeyExpire h.db key expireAt)

def cmdPersist (io : AppendIo) (h : Host) (argv : List Bytes) (resp : Respbuf) : Host × Respbuf :=
  let key := arg argv 1
  mutate io h ⟨.persist, key, [], 0⟩ (ascii "-ERR PERSIST COMMAND\n") resp (dbPersist h.db key)

def cmdDel (io : AppendIo) (h : Host) (argv : List Bytes) (resp : Respbuf) : Host × Respbuf :=
  let key := arg argv 1
  mutate io h ⟨.del, key, [], 0⟩ (ascii "-ERR DEL COMMAND\n") resp (dbDel h.db key)

def keysLoop (ht : RawHt Bytes) : (rounds : Nat) → HtIter Bytes → (count : Nat) → Respbuf → Respbuf
  | 0, _, _, resp => resp
  | rounds + 1, iter, count, resp =>
      match htIterNext ht iter with
      | (none, _) => resp
      | (some entry, iter) =>
          keysLoop ht rounds iter (count + 1)
            (respAddf resp (decimal (count + 1) ++ ascii ") " ++ entry.key ++ ascii "\n"))

def cmdKeys (h : Host) (resp : Respbuf) : Host × Respbuf :=
  (h, keysLoop h.db.keyspace.raw (h.db.keyspace.raw.entries.length + 1) htIterCreate 0 resp)

def rewriteStateName : AofRewriteState → Bytes
  | .idle => ascii "idle"
  | .active => ascii "active"
  | .aborting => ascii "aborting"

def cmdInfo (h : Host) (resp : Respbuf) : Host × Respbuf :=
  let uptimeS := (h.nowMs - h.db.startMs).tdiv 1000
  (h, respAddf resp
    (ascii "Uptime: " ++ decimal uptimeS ++ ascii " seconds\n" ++
      ascii "DB Size: " ++ decimal h.db.keyspace.raw.size ++ ascii "\n" ++
      ascii "DB Keys Used: " ++ decimal h.db.keyspace.raw.used ++ ascii "\n" ++
      ascii "AOF Writes: " ++ decimal h.aofTotalWrites ++ ascii "\n" ++
      ascii "AOF Fsyncs: " ++ decimal h.aofTotalFsyncs ++ ascii "\n" ++
      ascii "AOF Rewrite State: " ++ rewriteStateName h.aofRewriteState ++ ascii "\n" ++
      ascii "AOF Rewrites Completed: " ++ decimal h.aofRewritesCompleted ++ ascii "\n" ++
      ascii "AOF Rewrites Failed: " ++ decimal h.aofRewritesFailed ++ ascii "\n" ++
      ascii "AOF Last Rewrite Duration: " ++ decimal h.aofLastRewriteDurationMs ++
      ascii " ms\n"))

def cmdBgrewriteaof (io : StartIo) (h : Host) (resp : Respbuf) : Host × Respbuf :=
  if h.aofRewriteState ≠ .idle then
    (h, respAdd resp (ascii "-ERR rewrite already in progress\n"))
  else match aofRewriteStart io h with
    | (h, false) => (h, respAdd resp (ascii "-ERR failed to start rewrite\n"))
    | (h, true) => (h, respAdd resp (ascii "+OK background rewrite started\n"))

inductive CommandProc
  | get
  | ttl
  | set
  | setex
  | expire
  | persist
  | del
  | keys
  | info
  | bgrewriteaof
  deriving DecidableEq, Repr

structure CommandEntry where
  name : Bytes
  proc : CommandProc
  arity : Int
  deriving DecidableEq, Repr

def commandTable : List CommandEntry :=
  [⟨ascii "GET", .get, 2⟩, ⟨ascii "TTL", .ttl, 2⟩, ⟨ascii "SET", .set, -3⟩,
    ⟨ascii "SETEX", .setex, 4⟩, ⟨ascii "EXPIRE", .expire, 3⟩, ⟨ascii "PERSIST", .persist, 2⟩,
    ⟨ascii "DEL", .del, 2⟩, ⟨ascii "KEYS", .keys, 1⟩, ⟨ascii "INFO", .info, 1⟩,
    ⟨ascii "BGREWRITEAOF", .bgrewriteaof, 1⟩]

def toLower (b : UInt8) : UInt8 := if 65 ≤ b ∧ b ≤ 90 then b + 32 else b

def lookupCommand (name : Bytes) : Option CommandEntry :=
  commandTable.find? fun entry => name.map toLower = entry.name.map toLower

/-- Whether `command_execute` turns the call down for its number of arguments. -/
def arityWrong (entry : CommandEntry) (argc : Nat) : Bool :=
  (entry.arity > 0 && (argc : Int) ≠ entry.arity) || (entry.arity < 0 && (argc : Int) < -entry.arity)

def runProc (io : RequestIo) (h : Host) (argv : List Bytes) (resp : Respbuf) :
    CommandProc → Host × Respbuf
  | .get => cmdGet h argv resp
  | .ttl => cmdTtl h argv resp
  | .set => cmdSet io.append h argv resp
  | .setex => cmdSetex io.append h argv resp
  | .expire => cmdExpire io.append h argv resp
  | .persist => cmdPersist io.append h argv resp
  | .del => cmdDel io.append h argv resp
  | .keys => cmdKeys h resp
  | .info => cmdInfo h resp
  | .bgrewriteaof => cmdBgrewriteaof io.start h resp

def commandExecute (io : RequestIo) (h : Host) (payload : Bytes) (outCap : Nat) : Host × Bytes :=
  let argv := tokenizeCommand (cstr payload) maxTokens
  let resp : Respbuf := ⟨[], outCap⟩
  if argv = [] then (h, (respAdd resp (ascii "-ERR empty command\n")).out)
  else match lookupCommand (arg argv 0) with
    | none => (h, (respAdd resp (ascii "-ERR unknown command\n")).out)
    | some entry =>
        if arityWrong entry argv.length then
          (h, (respAdd resp (ascii "-ERR wrong number of arguments\n")).out)
        else
          let (h, resp) := runProc io h argv resp entry.proc
          (h, resp.out)

/-! What a request does to the host. -/

def procRecord (nowRealtimeMs : Int) (argv : List Bytes) : CommandProc → Option Record
  | .set => some ⟨.set, arg argv 1, arg argv 2, 0⟩
  | .setex => (parseSeconds (arg argv 2)).map fun seconds =>
      ⟨.setex, arg argv 1, arg argv 3, expireTime nowRealtimeMs seconds⟩
  | .expire => (parseSeconds (arg argv 2)).map fun seconds =>
      ⟨.expire, arg argv 1, [], expireTime nowRealtimeMs seconds⟩
  | .persist => some ⟨.persist, arg argv 1, [], 0⟩
  | .del => some ⟨.del, arg argv 1, [], 0⟩
  | _ => none

/-- The mutation a request asks for, whether or not the store accepts it. -/
def requestRecord (nowRealtimeMs : Int) (payload : Bytes) : Option Record :=
  let argv := tokenizeCommand (cstr payload) maxTokens
  match lookupCommand (arg argv 0) with
  | some entry =>
      if arityWrong entry argv.length then none else procRecord nowRealtimeMs argv entry.proc
  | none => none

def accepted (h : Host) (payload : Bytes) : Option Record :=
  (requestRecord h.nowRealtimeMs payload).filter fun r => (replayDispatch h.db r.decoded).2

def errText : AofOpcode → Bytes
  | .set => ascii "-ERR SET COMMAND\n"
  | .setex => ascii "-ERR SETEX COMMAND\n"
  | .expire => ascii "-ERR EXPIRE COMMAND\n"
  | .persist => ascii "-ERR PERSIST COMMAND\n"
  | .del => ascii "-ERR DEL COMMAND\n"

inductive Executed (io : RequestIo) (h : Host) (payload : Bytes) (outCap : Nat) :
    Host × Bytes → Prop
  | mutation (r : Record) (asks : requestRecord h.nowRealtimeMs payload = some r) :
      Executed io h payload outCap
        ((mutate io.append h r (errText r.op) ⟨[], outCap⟩ (replayDispatch h.db r.decoded)).1,
          (mutate io.append h r (errText r.op) ⟨[], outCap⟩ (replayDispatch h.db r.decoded)).2.out)
  | cleaned (key out : Bytes) (asks : requestRecord h.nowRealtimeMs payload = none) :
      Executed io h payload outCap
        ({ h with db := (dbExpireClean h.db key h.nowRealtimeMs).1 }, out)
  | started (out : Bytes) (asks : requestRecord h.nowRealtimeMs payload = none)
      (idle : h.aofRewriteState = .idle) :
      Executed io h payload outCap ((aofRewriteStart io.start h).1, out)
  | unchanged (out : Bytes) (asks : requestRecord h.nowRealtimeMs payload = none) :
      Executed io h payload outCap (h, out)

theorem dbGet_db (db : Db) (key : Bytes) (nowMs : Int) :
    (dbGet db key nowMs).1 = (dbExpireClean db key nowMs).1 := by
  rw [dbGet]
  rcases dbExpireClean db key nowMs with ⟨db, _ | _⟩ <;> rfl

theorem dbGetTtl_db (db : Db) (key : Bytes) (nowMs : Int) :
    (dbGetTtl db key nowMs).1 = (dbExpireClean db key nowMs).1 := by
  simp only [dbGetTtl]
  split
  · split <;> rfl
  · rfl

theorem cmdGet_host (h : Host) (argv : List Bytes) (resp : Respbuf) :
    (cmdGet h argv resp).1 =
      { h with db := (dbExpireClean h.db (arg argv 1) h.nowRealtimeMs).1 } := by
  rw [← dbGet_db, cmdGet]
  rcases dbGet h.db (arg argv 1) h.nowRealtimeMs with ⟨db, _ | val⟩ <;> rfl

theorem cmdTtl_host (h : Host) (argv : List Bytes) (resp : Respbuf) :
    (cmdTtl h argv resp).1 =
      { h with db := (dbExpireClean h.db (arg argv 1) h.nowRealtimeMs).1 } := by
  rw [← dbGetTtl_db]
  simp only [cmdTtl]
  split
  · rfl
  · split <;> rfl

theorem cmdBgrewriteaof_host (io : StartIo) (h : Host) (resp : Respbuf) :
    (h.aofRewriteState ≠ .idle ∧ (cmdBgrewriteaof io h resp).1 = h) ∨
      (h.aofRewriteState = .idle ∧ (cmdBgrewriteaof io h resp).1 = (aofRewriteStart io h).1) := by
  by_cases idle : h.aofRewriteState = .idle
  · refine Or.inr ⟨idle, ?_⟩
    rw [cmdBgrewriteaof, if_neg (by simp [idle])]
    rcases aofRewriteStart io h with ⟨h', _ | _⟩ <;> rfl
  · exact Or.inl ⟨idle, by rw [cmdBgrewriteaof, if_pos idle]⟩

theorem runProc_of_record {io : RequestIo} {h : Host} {argv : List Bytes} {resp : Respbuf}
    {proc : CommandProc} {r : Record} (asks : procRecord h.nowRealtimeMs argv proc = some r) :
    runProc io h argv resp proc =
      mutate io.append h r (errText r.op) resp (replayDispatch h.db r.decoded) := by
  cases proc with
  | set | persist | del =>
    obtain rfl := Option.some.inj asks
    rfl
  | setex =>
    obtain ⟨seconds, parsed, rfl⟩ := Option.map_eq_some_iff.mp asks
    simp only [runProc, cmdSetex, parsed]
    rfl
  | expire =>
    obtain ⟨seconds, parsed, rfl⟩ := Option.map_eq_some_iff.mp asks
    simp only [runProc, cmdExpire, parsed]
    rfl
  | _ => simp [procRecord] at asks

theorem runProc_of_none {h : Host} {argv : List Bytes} {proc : CommandProc} (io : RequestIo)
    (resp : Respbuf) (asks : procRecord h.nowRealtimeMs argv proc = none) :
    (∃ key, (runProc io h argv resp proc).1 =
        { h with db := (dbExpireClean h.db key h.nowRealtimeMs).1 }) ∨
      (h.aofRewriteState = .idle ∧
        (runProc io h argv resp proc).1 = (aofRewriteStart io.start h).1) ∨
      (runProc io h argv resp proc).1 = h := by
  cases proc with
  | get => exact Or.inl ⟨_, cmdGet_host h argv resp⟩
  | ttl => exact Or.inl ⟨_, cmdTtl_host h argv resp⟩
  | keys | info => exact Or.inr (Or.inr rfl)
  | bgrewriteaof =>
    rcases cmdBgrewriteaof_host io.start h resp with ⟨-, same⟩ | started
    · exact Or.inr (Or.inr same)
    · exact Or.inr (Or.inl started)
  | setex =>
    have invalid : parseSeconds (arg argv 2) = none := Option.map_eq_none_iff.mp asks
    exact Or.inr (Or.inr (by simp only [runProc, cmdSetex, invalid]))
  | expire =>
    have invalid : parseSeconds (arg argv 2) = none := Option.map_eq_none_iff.mp asks
    exact Or.inr (Or.inr (by simp only [runProc, cmdExpire, invalid]))
  | _ => simp [procRecord] at asks

def requestProc (payload : Bytes) : Option CommandProc :=
  let argv := tokenizeCommand (cstr payload) maxTokens
  if argv = [] then none
  else (lookupCommand (arg argv 0)).bind fun entry =>
    if arityWrong entry argv.length then none else some entry.proc

theorem commandExecute_of_none {payload : Bytes} (none : requestProc payload = none)
    (io : RequestIo) (h : Host) (outCap : Nat) : (commandExecute io h payload outCap).1 = h := by
  simp only [requestProc] at none
  simp only [commandExecute]
  split
  · rfl
  · rename_i some
    rw [if_neg some] at none
    cases found : lookupCommand (arg (tokenizeCommand (cstr payload) maxTokens) 0) with
    | none => rfl
    | some entry =>
      simp only [found, Option.bind_some, ite_eq_left_iff, reduceCtorEq, imp_false, not_not] at none
      simp only [none, if_true]

theorem commandExecute_of_proc {payload : Bytes} {proc : CommandProc}
    (asks : requestProc payload = some proc) (io : RequestIo) (h : Host) (outCap : Nat) :
    commandExecute io h payload outCap =
      ((runProc io h (tokenizeCommand (cstr payload) maxTokens) ⟨[], outCap⟩ proc).1,
        (runProc io h (tokenizeCommand (cstr payload) maxTokens) ⟨[], outCap⟩ proc).2.out) := by
  simp only [requestProc] at asks
  simp only [commandExecute]
  split at asks
  · cases asks
  · rename_i some
    obtain ⟨entry, found, asks⟩ := Option.bind_eq_some_iff.mp asks
    split at asks
    · cases asks
    · rename_i arity
      cases asks
      rw [if_neg some]
      simp only [found, arity]
      rfl

theorem requestProc_bind {β : Type} (payload : Bytes) (f : CommandProc → Option β) :
    (match lookupCommand (arg (tokenizeCommand (cstr payload) maxTokens) 0) with
      | some entry =>
          if arityWrong entry (tokenizeCommand (cstr payload) maxTokens).length then none
          else f entry.proc
      | none => none) = (requestProc payload).bind f := by
  simp only [requestProc]
  by_cases blank : tokenizeCommand (cstr payload) maxTokens = []
  · have unknown : lookupCommand (arg [] 0) = none := by decide
    rw [if_pos blank, blank, unknown]
    rfl
  · rw [if_neg blank]
    cases lookupCommand (arg (tokenizeCommand (cstr payload) maxTokens) 0) with
    | none => rfl
    | some entry =>
      simp only [Option.bind_some]
      split <;> rfl

theorem requestRecord_bind (nowRealtimeMs : Int) (payload : Bytes) :
    requestRecord nowRealtimeMs payload = (requestProc payload).bind
      (procRecord nowRealtimeMs (tokenizeCommand (cstr payload) maxTokens)) :=
  requestProc_bind payload _

theorem requestProc_iff {payload : Bytes} {proc : CommandProc} : requestProc payload = some proc ↔
    ∃ entry, lookupCommand (arg (tokenizeCommand (cstr payload) maxTokens) 0) = some entry ∧
      arityWrong entry (tokenizeCommand (cstr payload) maxTokens).length = false ∧
      entry.proc = proc := by
  have self := requestProc_bind payload some
  rw [Option.bind_fun_some] at self
  rw [← self]
  cases lookupCommand (arg (tokenizeCommand (cstr payload) maxTokens) 0) with
  | none => simp
  | some entry => simp

theorem commandExecute_cases (io : RequestIo) (h : Host) (payload : Bytes) (outCap : Nat) :
    Executed io h payload outCap (commandExecute io h payload outCap) := by
  have asked := requestRecord_bind h.nowRealtimeMs payload
  cases comes : requestProc payload with
  | none =>
    rw [comes] at asked
    have same := commandExecute_of_none comes io h outCap
    rw [← Prod.mk.eta (p := commandExecute io h payload outCap), same]
    exact .unchanged _ asked
  | some proc =>
    rw [comes, Option.bind_some] at asked
    rw [commandExecute_of_proc comes]
    rcases Option.eq_none_or_eq_some
      (procRecord h.nowRealtimeMs (tokenizeCommand (cstr payload) maxTokens) proc)
      with asks | ⟨r, asks⟩
    · rcases runProc_of_none io ⟨[], outCap⟩ asks with ⟨key, eq⟩ | ⟨idle, eq⟩ | eq
      all_goals rw [eq]
      · exact .cleaned key _ (asked.trans asks)
      · exact .started _ (asked.trans asks) idle
      · exact .unchanged _ (asked.trans asks)
    · rw [runProc_of_record asks]
      exact .mutation r (asked.trans asks)

theorem requestProc_of_tokens {payload name : Bytes} {args : List Bytes} {entry : CommandEntry}
    (tokens : tokenizeCommand (cstr payload) maxTokens = name :: args)
    (found : lookupCommand name = some entry) (right : arityWrong entry (args.length + 1) = false) :
    requestProc payload = some entry.proc := by
  rw [requestProc_iff, tokens]
  exact ⟨entry, found, right, rfl⟩

theorem set_asks {payload key value : Bytes} {more : List Bytes} (nowRealtimeMs : Int)
    (tokens : tokenizeCommand (cstr payload) maxTokens = ascii "SET" :: key :: value :: more) :
    requestRecord nowRealtimeMs payload = some ⟨.set, key, value, 0⟩ := by
  have found : lookupCommand (ascii "SET") = some ⟨ascii "SET", .set, -3⟩ := by decide
  have right : arityWrong ⟨ascii "SET", .set, -3⟩ (more.length + 1 + 1 + 1) = false := by
    simp [arityWrong]
    omega
  rw [requestRecord_bind, requestProc_of_tokens tokens found right, tokens]
  rfl

theorem requestProc_pair {name k : Bytes} {entry : CommandEntry} (hn : IsWord name) (hk : IsWord k)
    (found : lookupCommand name = some entry) (right : arityWrong entry 2 = false) :
    requestProc (name ++ 32 :: k) = some entry.proc ∧
      arg (tokenizeCommand (cstr (name ++ 32 :: k)) maxTokens) 1 = k := by
  have tokens := tokenizeCommand_intercalate (show ∀ w ∈ [name, k], IsWord w by simp [hn, hk])
  rw [List.intercalate_cons_cons, List.intercalate_singleton, List.append_assoc,
    List.singleton_append] at tokens
  refine ⟨requestProc_of_tokens tokens found right, ?_⟩
  rw [tokens]
  rfl

theorem arg_nulFree {argv : List Bytes} (h : ∀ token ∈ argv, NulFree token) (i : Nat) :
    NulFree (arg argv i) := by
  rw [arg, List.getD_eq_getElem?_getD]
  cases hi : argv[i]? with
  | none => simp [NulFree]
  | some token => exact h token (List.mem_of_getElem? hi)

theorem procRecord_wellFormed {nowRealtimeMs : Int} {argv : List Bytes} {proc : CommandProc}
    {r : Record} (tokens : ∀ token ∈ argv, NulFree token)
    (asks : procRecord nowRealtimeMs argv proc = some r) :
    NulFree r.key ∧ NulFree r.value ∧ InI64 r.expireAt := by
  cases proc with
  | set =>
    obtain rfl := Option.some.inj asks
    exact ⟨arg_nulFree tokens 1, arg_nulFree tokens 2, inI64_zero⟩
  | persist | del =>
    obtain rfl := Option.some.inj asks
    exact ⟨arg_nulFree tokens 1, List.not_mem_nil, inI64_zero⟩
  | setex =>
    obtain ⟨seconds, -, rfl⟩ := Option.map_eq_some_iff.mp asks
    exact ⟨arg_nulFree tokens 1, arg_nulFree tokens 3, expireTime_i64 _ _⟩
  | expire =>
    obtain ⟨seconds, -, rfl⟩ := Option.map_eq_some_iff.mp asks
    exact ⟨arg_nulFree tokens 1, List.not_mem_nil, expireTime_i64 _ _⟩
  | _ => simp [procRecord] at asks

theorem requestRecord_wellFormed {nowRealtimeMs : Int} {payload : Bytes} {r : Record}
    (asks : requestRecord nowRealtimeMs payload = some r) :
    NulFree r.key ∧ NulFree r.value ∧ InI64 r.expireAt := by
  rw [requestRecord_bind] at asks
  obtain ⟨proc, -, asks⟩ := Option.bind_eq_some_iff.mp asks
  exact procRecord_wellFormed (tokenizeCommand_nulFree payload) asks

theorem keysLoop_fits (ht : RawHt Bytes) (rounds : Nat) (iter : HtIter Bytes) (count : Nat)
    {resp : Respbuf} {cap : Nat} (h : resp.Fits cap) :
    (keysLoop ht rounds iter count resp).Fits cap := by
  induction rounds generalizing iter count resp with
  | zero => exact h
  | succ rounds ih =>
    rw [keysLoop]
    split
    · exact h
    · exact ih _ _ (respAddf_fits h _)

theorem mutate_fits (io : AppendIo) (h : Host) (r : Record) (err : Bytes) {resp : Respbuf}
    {cap : Nat} (fits : resp.Fits cap) (out : Db × Bool) :
    (mutate io h r err resp out).2.Fits cap := by
  rcases out with ⟨db, _ | _⟩ <;> exact respAdd_fits fits _

theorem runProc_fits (io : RequestIo) (h : Host) (argv : List Bytes) {resp : Respbuf} {cap : Nat}
    (fits : resp.Fits cap) (proc : CommandProc) : (runProc io h argv resp proc).2.Fits cap := by
  cases proc with
  | get =>
    simp only [runProc, cmdGet]
    split
    · exact respAdd_fits fits _
    · exact respAddf_fits fits _
  | ttl =>
    simp only [runProc, cmdTtl]
    split
    · exact respAdd_fits fits _
    · split
      · exact respAdd_fits fits _
      · exact respAddf_fits fits _
  | set | persist | del => exact mutate_fits _ _ _ _ fits _
  | setex =>
    simp only [runProc, cmdSetex]
    split
    · exact respAdd_fits fits _
    · exact mutate_fits _ _ _ _ fits _
  | expire =>
    simp only [runProc, cmdExpire]
    split
    · exact respAdd_fits fits _
    · exact mutate_fits _ _ _ _ fits _
  | keys => exact keysLoop_fits _ _ _ _ fits
  | info => exact respAddf_fits fits _
  | bgrewriteaof =>
    simp only [runProc, cmdBgrewriteaof]
    split
    · exact respAdd_fits fits _
    · split <;> exact respAdd_fits fits _

theorem commandExecute_length (io : RequestIo) (h : Host) (payload : Bytes) (outCap : Nat) :
    (commandExecute io h payload outCap).2.length ≤ outCap := by
  have start : Respbuf.Fits ⟨[], outCap⟩ outCap := ⟨rfl, Nat.zero_le _⟩
  simp only [commandExecute]
  split
  · exact (respAdd_fits start _).length
  · split
    · exact (respAdd_fits start _).length
    · split
      · exact (respAdd_fits start _).length
      · exact (runProc_fits io h _ start _).length

theorem commandExecute_of_record {io : RequestIo} {h : Host} {payload : Bytes} {outCap : Nat}
    {r : Record} (asks : requestRecord h.nowRealtimeMs payload = some r) :
    commandExecute io h payload outCap =
      ((mutate io.append h r (errText r.op) ⟨[], outCap⟩ (replayDispatch h.db r.decoded)).1,
        (mutate io.append h r (errText r.op) ⟨[], outCap⟩ (replayDispatch h.db r.decoded)).2.out) := by
  have exec := commandExecute_cases io h payload outCap
  generalize commandExecute io h payload outCap = result at exec ⊢
  cases exec with
  | mutation r' asks' =>
    obtain rfl : r' = r := Option.some.inj (asks'.symm.trans asks)
    rfl
  | cleaned key out none => simp [asks] at none
  | started out none => simp [asks] at none
  | unchanged out none => simp [asks] at none

theorem mutation_response {io : RequestIo} {h : Host} {payload : Bytes} {r : Record}
    (asks : requestRecord h.nowRealtimeMs payload = some r) :
    (commandExecute io h payload msgMax).2 = ascii "+OK\n" ↔ accepted h payload = some r := by
  have took : accepted h payload = some r ↔ (replayDispatch h.db r.decoded).2 = true := by
    simp [accepted, asks, Option.filter]
  rw [took, commandExecute_of_record asks]
  rcases replayDispatch h.db r.decoded with ⟨db, _ | _⟩
  · cases r.op <;> simp [mutate, respAdd, errText] <;> decide
  · simp [mutate, respAdd]
    decide

theorem mutation_db {io : RequestIo} {h : Host} {payload : Bytes} {r : Record}
    (asks : requestRecord h.nowRealtimeMs payload = some r) :
    (commandExecute io h payload msgMax).1.db = (replayDispatch h.db r.decoded).1 := by
  rw [commandExecute_of_record asks]
  rcases replayDispatch h.db r.decoded with ⟨db, _ | _⟩
  · rfl
  · exact (aofAppend_frame io.append { h with db := db } r).1.db

end ByteKV.Command
