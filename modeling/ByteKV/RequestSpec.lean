import ByteKV.ExpiringStore
import ByteKV.LiveKeys

/-! What a request asks of the store, and how the store's reply is worded. Every payload is
one query of the expiring store, and command.c answers it with the text of the reply, cut off
where the response buffer ends. -/
namespace ByteKV.RequestSpec
open Config Database AofRecord ServerState AofAppend AofRewrite Command CommandLine
open ExpiringLog ExpiringStore LiveKeys ResponseRoom Visibility

def requestKey (payload : Bytes) : Bytes := arg (tokenizeCommand (cstr payload) maxTokens) 1

def procQuery (key : Bytes) : CommandProc → Query Bytes Bytes Int
  | .get => .value key
  | .ttl => .due key
  | .keys | .info => .keys
  | _ => .nothing

def query (nowRealtimeMs : Int) (payload : Bytes) : Query Bytes Bytes Int :=
  match requestRecord nowRealtimeMs payload with
  | some r => .update r.key r.update
  | none => ((requestProc payload).map (procQuery (requestKey payload))).getD .nothing

def clip (text : Bytes) : Bytes := text.take (msgMax - 1)

/-- The words for a reply of the store. INFO, which has more to tell, counts the keys. -/
inductive Worded (nowRealtimeMs : Int) (payload : Bytes) : Reply Bytes Bytes Int → Bytes → Prop
  | found (asks : requestProc payload = some .get) (v : Bytes) :
      Worded nowRealtimeMs payload (.value (some v)) (clip (ascii "+" ++ v ++ ascii "\n"))
  | missing (asks : requestProc payload = some .get) :
      Worded nowRealtimeMs payload (.value none) notFound
  | timed (asks : requestProc payload = some .ttl) (d : Int) :
      Worded nowRealtimeMs payload (.due (some (some d)))
        (clip (ttlText (requestKey payload) ((d - nowRealtimeMs).tdiv 1000)))
  | untimed (asks : requestProc payload = some .ttl) :
      Worded nowRealtimeMs payload (.due (some none)) (ascii "-ERR key does not have TTL\n")
  | absent (asks : requestProc payload = some .ttl) :
      Worded nowRealtimeMs payload (.due none) notFound
  | taken (r : Record) (asks : requestRecord nowRealtimeMs payload = some r) :
      Worded nowRealtimeMs payload (.updated true) (ascii "+OK\n")
  | refused (r : Record) (asks : requestRecord nowRealtimeMs payload = some r) :
      Worded nowRealtimeMs payload (.updated false) (errText r.op)
  | listed (asks : requestProc payload = some .keys) (ks : List Bytes) :
      Worded nowRealtimeMs payload (.keys ks) (clip (keysText ks))
  | counted (asks : requestProc payload = some .info) (ks : List Bytes) (front back : Bytes) :
      Worded nowRealtimeMs payload (.keys ks)
        (clip (front ++ ascii "DB Keys Used: " ++ decimal ks.length ++ ascii "\n" ++ back))
  | unread (asks : requestProc payload = none) (out : Bytes)
      (text : out = ascii "-ERR empty command\n" ∨ out = ascii "-ERR unknown command\n" ∨
        out = ascii "-ERR wrong number of arguments\n") :
      Worded nowRealtimeMs payload .nothing out
  | untimely (asks : requestProc payload = some .setex ∨ requestProc payload = some .expire)
      (invalid : parseSeconds (arg (tokenizeCommand (cstr payload) maxTokens) 2) = none) :
      Worded nowRealtimeMs payload .nothing (ascii "-ERR invalid expire time\n")
  | rewrite (asks : requestProc payload = some .bgrewriteaof) (out : Bytes)
      (text : out = ascii "-ERR rewrite already in progress\n" ∨
        out = ascii "-ERR failed to start rewrite\n" ∨
        out = ascii "+OK background rewrite started\n") :
      Worded nowRealtimeMs payload .nothing out

theorem keys_lists (h : Host) : Lists (keys h) h.db.cells := by
  refine ⟨h.db.keyspace.keys_nodup, fun k => ⟨fun there => ?_, fun held => ?_⟩⟩
  · obtain ⟨⟨k, v⟩, entry, rfl⟩ := List.mem_map.mp there
    exact Option.isSome_iff_exists.mpr ⟨v, h.db.keyspace.mem_entries_iff.mp entry⟩
  · obtain ⟨v, there⟩ := Option.isSome_iff_exists.mp held
    exact List.mem_map.mpr ⟨⟨k, v⟩, h.db.keyspace.mem_entries_iff.mpr there, rfl⟩

def reply (h : Host) (payload : Bytes) : Reply Bytes Bytes Int × Cells Bytes Bytes Int :=
  answer h.nowRealtimeMs (keys h) h.db.cells (query h.nowRealtimeMs payload)

/-- The request does to the store what its query says, and is answered in the words for the
store's reply. -/
def Answered (io : RequestIo) (h : Host) (payload : Bytes) : Prop :=
  Worded h.nowRealtimeMs payload (reply h payload).1 (commandExecute io h payload msgMax).2 ∧
    (commandExecute io h payload msgMax).1.db.cells = (reply h payload).2

theorem query_of_record {nowRealtimeMs : Int} {payload : Bytes} {r : Record}
    (asks : requestRecord nowRealtimeMs payload = some r) :
    query nowRealtimeMs payload = .update r.key r.update := by
  rw [query, asks]

section Handlers
variable {h : Host} {payload : Bytes}

theorem mutation_answered (io : RequestIo) {r : Record}
    (asks : requestRecord h.nowRealtimeMs payload = some r) :
    Answered io h payload := by
  have cells := replayDispatch_cells h.db r
  have answered : reply h payload =
      (.updated (r.entry.apply h.db.cells).2, (r.entry.apply h.db.cells).1) := by
    rw [reply, query_of_record asks]
    rfl
  rw [Answered, answered, mutation_db asks, ← cells]
  refine ⟨?_, rfl⟩
  rw [commandExecute_of_record asks]
  rcases replayDispatch h.db r.decoded with ⟨db, _ | _⟩
  · have whole : (mutate io.append h r (errText r.op) ⟨[], msgMax⟩ (db, false)).2.out =
        errText r.op := by
      cases r.op <;> rfl
    rw [whole]
    exact .refused r asks
  · exact .taken r asks

theorem query_of_proc {nowRealtimeMs : Int} {proc : CommandProc}
    (comes : requestProc payload = some proc)
    (silent : procRecord nowRealtimeMs (tokenizeCommand (cstr payload) maxTokens) proc = none) :
    query nowRealtimeMs payload = procQuery (requestKey payload) proc := by
  have asks : requestRecord nowRealtimeMs payload = none := by
    rw [requestRecord_bind, comes, Option.bind_some, silent]
  rw [query, asks, comes]
  rfl

theorem get_answered (io : RequestIo) (comes : requestProc payload = some .get) :
    Answered io h payload := by
  have answered : reply h payload =
      (.value ((settle h.nowRealtimeMs h.db.cells).val (requestKey payload)),
        touch h.nowRealtimeMs h.db.cells (requestKey payload)) := by
    rw [reply, query_of_proc comes rfl]
    rfl
  have value := dbGet_value h.db (requestKey payload) h.nowRealtimeMs
  have cells := dbGet_cells h.db (requestKey payload) h.nowRealtimeMs
  rw [Answered, answered, ← value, touch, ← cells, commandExecute_of_proc comes, runProc, cmdGet,
    ← requestKey]
  rcases dbGet h.db (requestKey payload) h.nowRealtimeMs with ⟨db, _ | v⟩
  · exact ⟨.missing comes, rfl⟩
  · refine ⟨?_, rfl⟩
    simp only [respAddf_clipped (show 0 < msgMax by decide)]
    exact .found comes v

theorem ttl_answered (io : RequestIo) (comes : requestProc payload = some .ttl) :
    Answered io h payload := by
  have answered : reply h payload =
      (.due (((settle h.nowRealtimeMs h.db.cells).val (requestKey payload)).map fun _ =>
        (settle h.nowRealtimeMs h.db.cells).due (requestKey payload)),
        touch h.nowRealtimeMs h.db.cells (requestKey payload)) := by
    rw [reply, query_of_proc comes rfl]
    rfl
  have value := dbGetTtl_value h.db (requestKey payload) h.nowRealtimeMs
  have cells := dbGetTtl_cells h.db (requestKey payload) h.nowRealtimeMs
  rw [Answered, answered, touch, ← cells, commandExecute_of_proc comes, runProc, cmdTtl,
    ← requestKey]
  rcases out : dbGetTtl h.db (requestKey payload) h.nowRealtimeMs with ⟨db, ttl⟩
  rw [out] at value
  change ttl = _ at value
  cases there : (settle h.nowRealtimeMs h.db.cells).val (requestKey payload) with
  | none =>
    obtain rfl : ttl = -2 := by rw [value, there]
    exact ⟨.absent comes, rfl⟩
  | some v =>
    cases due : (settle h.nowRealtimeMs h.db.cells).due (requestKey payload) with
    | none =>
      obtain rfl : ttl = -1 := by rw [value, there, due]
      exact ⟨.untimed comes, rfl⟩
    | some d =>
      have seconds : ttl = (d - h.nowRealtimeMs).tdiv 1000 := by rw [value, there, due]
      -- A deadline that has not passed is never mistaken for one of the two codes.
      have later : 0 ≤ d - h.nowRealtimeMs := by
        simp only [settle] at due
        split at due
        · cases due
        · rename_i live
          rw [due, past_some, decide_eq_true_eq] at live
          omega
      have nonneg : 0 ≤ ttl := seconds ▸ Int.tdiv_nonneg later (by decide)
      have missing : ¬ ttl = -2 := by omega
      have untimed : ¬ ttl = -1 := by omega
      simp only [if_neg missing, if_neg untimed, respAddf_clipped (show 0 < msgMax by decide)]
      exact ⟨seconds ▸ .timed comes d, trivial⟩

theorem keys_answered (io : RequestIo) (comes : requestProc payload = some .keys) :
    Answered io h payload := by
  have answered : reply h payload = (.keys (keys h), h.db.cells) := by
    rw [reply, query_of_proc comes rfl]
    rfl
  rw [Answered, answered, keys_out (by decide) comes, commandExecute_of_proc comes]
  exact ⟨.listed comes (keys h), rfl⟩

theorem info_answered (io : RequestIo) (comes : requestProc payload = some .info) :
    Answered io h payload := by
  have answered : reply h payload = (.keys (keys h), h.db.cells) := by
    rw [reply, query_of_proc comes rfl]
    rfl
  have used : h.db.keyspace.raw.used = (keys h).length :=
    h.db.keyspace.wf.used_eq.trans (List.length_map ..).symm
  rw [Answered, answered, commandExecute_of_proc comes, runProc, cmdInfo]
  refine ⟨?_, rfl⟩
  simp only [respAddf_clipped (show 0 < msgMax by decide), used]
  let front := ascii "Uptime: " ++ decimal ((h.nowMs - h.db.startMs).tdiv 1000) ++
    ascii " seconds\n" ++ ascii "DB Size: " ++ decimal h.db.keyspace.raw.size ++ ascii "\n"
  let back := ascii "AOF Writes: " ++ decimal h.aofTotalWrites ++ ascii "\n" ++
    ascii "AOF Fsyncs: " ++ decimal h.aofTotalFsyncs ++ ascii "\n" ++
    ascii "AOF Rewrite State: " ++ rewriteStateName h.aofRewriteState ++ ascii "\n" ++
    ascii "AOF Rewrites Completed: " ++ decimal h.aofRewritesCompleted ++ ascii "\n" ++
    ascii "AOF Rewrites Failed: " ++ decimal h.aofRewritesFailed ++ ascii "\n" ++
    ascii "AOF Last Rewrite Duration: " ++ decimal h.aofLastRewriteDurationMs ++ ascii " ms\n"
  have told := @Worded.counted h.nowRealtimeMs _ comes (keys h) front back
  simpa only [front, back, clip, List.append_assoc] using told

theorem rewrite_answered (io : RequestIo) (comes : requestProc payload = some .bgrewriteaof) :
    Answered io h payload := by
  have answered : reply h payload = (.nothing, h.db.cells) := by
    rw [reply, query_of_proc comes rfl]
    rfl
  rw [Answered, answered, commandExecute_of_proc comes, runProc, cmdBgrewriteaof]
  split
  · exact ⟨.rewrite comes _ (Or.inl rfl), rfl⟩
  · rcases start : aofRewriteStart io.start h with ⟨h', _ | _⟩
    all_goals
      have db : h'.db = h.db := by
        rcases StepCases.aofRewriteStart_cases io.start h with eq | eq <;> rw [start] at eq <;>
          change h' = _ at eq <;> rw [eq] <;> rfl
      have cells : h'.db.cells = h.db.cells := congrArg Db.cells db
    · exact ⟨.rewrite comes _ (Or.inr (Or.inl rfl)), cells⟩
    · exact ⟨.rewrite comes _ (Or.inr (Or.inr rfl)), cells⟩

theorem untimely_answered (io : RequestIo) {proc : CommandProc}
    (comes : requestProc payload = some proc) (timed : proc = .setex ∨ proc = .expire)
    (invalid : parseSeconds (arg (tokenizeCommand (cstr payload) maxTokens) 2) = none) :
    Answered io h payload := by
  have answered : reply h payload = (.nothing, h.db.cells) := by
    have silent : procRecord h.nowRealtimeMs (tokenizeCommand (cstr payload) maxTokens) proc =
        none := by
      rcases timed with rfl | rfl <;> simp only [procRecord, invalid, Option.map_none]
    rw [reply, query_of_proc comes silent]
    rcases timed with rfl | rfl <;> rfl
  rw [Answered, answered, commandExecute_of_proc comes]
  rcases timed with rfl | rfl
  · simp only [runProc, cmdSetex, invalid]
    exact ⟨.untimely (Or.inl comes) invalid, trivial⟩
  · simp only [runProc, cmdExpire, invalid]
    exact ⟨.untimely (Or.inr comes) invalid, trivial⟩

theorem unread_answered (io : RequestIo) (comes : requestProc payload = none) :
    Answered io h payload := by
  have answered : reply h payload = (.nothing, h.db.cells) := by
    rw [reply, query, requestRecord_bind, comes]
    rfl
  rw [Answered, answered, commandExecute_of_none comes]
  refine ⟨.unread comes _ ?_, rfl⟩
  simp only [requestProc] at comes
  simp only [commandExecute]
  split
  · exact Or.inl rfl
  · rename_i some
    rw [if_neg some] at comes
    cases found : lookupCommand (arg (tokenizeCommand (cstr payload) maxTokens) 0) with
    | none => exact Or.inr (Or.inl rfl)
    | some entry =>
      simp only [found, Option.bind_some, ite_eq_left_iff, reduceCtorEq, imp_false,
        not_not] at comes
      simp only [comes, if_true]
      exact Or.inr (Or.inr rfl)

end Handlers

theorem commandExecute_answered (io : RequestIo) (h : Host) (payload : Bytes) :
    Answered io h payload := by
  cases comes : requestProc payload with
  | none => exact unread_answered io comes
  | some proc =>
    have asked := requestRecord_bind h.nowRealtimeMs payload
    rw [comes, Option.bind_some] at asked
    cases proc with
    | get => exact get_answered io comes
    | ttl => exact ttl_answered io comes
    | keys => exact keys_answered io comes
    | info => exact info_answered io comes
    | bgrewriteaof => exact rewrite_answered io comes
    | set | persist | del => exact mutation_answered io asked
    | setex =>
      cases parsed : parseSeconds (arg (tokenizeCommand (cstr payload) maxTokens) 2) with
      | none => exact untimely_answered io comes (Or.inl rfl) parsed
      | some seconds =>
        simp only [procRecord, parsed, Option.map_some] at asked
        exact mutation_answered io asked
    | expire =>
      cases parsed : parseSeconds (arg (tokenizeCommand (cstr payload) maxTokens) 2) with
      | none => exact untimely_answered io comes (Or.inr rfl) parsed
      | some seconds =>
        simp only [procRecord, parsed, Option.map_some] at asked
        exact mutation_answered io asked

theorem commandExecute_frame (io : RequestIo) (h : Host) (payload : Bytes) :
    (commandExecute io h payload msgMax).1.nowRealtimeMs = h.nowRealtimeMs ∧
      (commandExecute io h payload msgMax).1.exited = h.exited := by
  have exec := commandExecute_cases io h payload msgMax
  generalize commandExecute io h payload msgMax = result at exec ⊢
  cases exec with
  | mutation r asks =>
    rcases replayDispatch h.db r.decoded with ⟨db, _ | _⟩
    · exact ⟨rfl, rfl⟩
    · have frame := (aofAppend_frame io.append { h with db := db } r).1
      exact ⟨frame.nowRealtimeMs, frame.exited⟩
  | started out asks idle =>
    rcases StepCases.aofRewriteStart_cases io.start h with eq | eq <;> rw [eq] <;> exact ⟨rfl, rfl⟩
  | cleaned | unchanged => exact ⟨rfl, rfl⟩

end ByteKV.RequestSpec
