import ByteKV.Visibility
import Mathlib.Algebra.Order.Ring.Int

/-! The room of a response. Whatever a request can store under a key, GET can answer it whole.
TTL repeats the key, between 17 bytes of its own and the seconds, and there a key can be too
long. -/
namespace ByteKV.ResponseRoom
open Config Database AofRecord ServerState ServerRun Command CommandLine StepCases
open StoreInvariant Capacity ExpiringLog Visibility

/-! What requests store. -/

/-- Some request of at most `MSG_MAX` bytes names the key, and this value. -/
def Sent (k v : Bytes) : Prop :=
  ∃ nowRealtimeMs payload r, payload.length ≤ msgMax ∧
    requestRecord nowRealtimeMs payload = some r ∧ r.key = k ∧ r.value = v

def SentOnly (c : Cells Bytes Bytes Int) : Prop := ∀ k v, c.val k = some v → Sent k v

theorem SentOnly.sub {c c' : Cells Bytes Bytes Int} (sub : Sub c c') (sent : SentOnly c) :
    SentOnly c' := fun k v hv => sent k v (sub.val k v hv)

theorem sentOnly_kept : Kept (fun r => Sent r.key r.value) SentOnly := by
  refine .of_sub (by simp [SentOnly, Cells.empty]) (fun {c r} sent all k v hv => ?_) SentOnly.sub
  by_cases hk : k = r.key
  · subst hk
    rcases Entry.apply_val_self (e := r.entry) hv with old | new
    · exact all _ v old
    · exact Record.entry_val new ▸ sent
  · exact all k v ((r.entry.apply_of_ne c hk).1 ▸ hv)

theorem mutation_sent {h : Host} {e : Event} {r : Record} (makes : mutation h e = some r) :
    Sent r.key r.value := by
  cases e with
  | request payload io =>
    obtain ⟨⟨-, short⟩, asks, -⟩ := mutation_iff.mp makes
    exact ⟨_, payload, r, short, asks, rfl, rfl⟩
  | _ => simp [mutation] at makes

theorem sentOnly_run {config : ServerConfig} {disk : FileIo.Disk}
    {nowMs nowRealtimeMs realtimeMs : Int} {io : BootIo} {h : Host}
    (boot : initServer config disk nowMs nowRealtimeMs realtimeMs io = some h)
    (start : SentOnly h.db.cells) (events : List Event) : SentOnly (run h events).db.cells := by
  have childless := (RewriteInvariant.initServer_spec boot).1.child
  have stores : Stores SentOnly h := ⟨start, by simp [childless]⟩
  exact (Transition.run_invariant_always (fun g e stores => stores_step sentOnly_kept stores
    (fun _ makes => mutation_sent makes) (sweepKeeps_of_sub SentOnly.sub g e)) stores events).store

theorem Sent.word {k v : Bytes} (sent : Sent k v) : IsWord k := by
  obtain ⟨_, _, r, -, asks, rfl, rfl⟩ := sent
  exact requestRecord_word asks

theorem Sent.room {k v : Bytes} (sent : Sent k v) : k.length + v.length + 4 ≤ msgMax := by
  obtain ⟨_, _, r, short, asks, rfl, rfl⟩ := sent
  exact (requestRecord_length asks).trans short

/-! One formatted line in an empty buffer. -/

theorem respAddf_clipped {cap : Nat} (pos : 0 < cap) (text : Bytes) :
    (respAddf ⟨[], cap⟩ text).out = text.take (cap - 1) :=
  congrArg Respbuf.out (respAddf_take pos)

theorem respAddf_out_iff {cap : Nat} {text : Bytes} (pos : 0 < cap) :
    (respAddf ⟨[], cap⟩ text).out = text ↔ text.length < cap := by
  rw [respAddf_clipped pos, List.take_eq_self_iff]
  omega

theorem decimal_length_le {n : Int} {k : Nat} (nonneg : 0 ≤ n) (pos : 0 < k) :
    (decimal n).length ≤ k ↔ n < 10 ^ k := by
  obtain ⟨m, rfl⟩ := Int.eq_ofNat_of_zero_le nonneg
  rw [decimal, if_neg (not_lt.mpr nonneg), List.nil_append, List.length_map, Int.natAbs_natCast,
    Nat.length_toDigits_le_iff (by decide) pos]
  norm_cast

/-! The answers of GET and TTL. -/

def Answers (h : Host) (proc : CommandProc) (k text : Bytes) : Prop :=
  ∀ io payload, payload.length ≤ msgMax → requestProc payload = some proc →
    arg (tokenizeCommand (cstr payload) maxTokens) 1 = k →
    (commandExecute io h payload msgMax).2 = text

def seconds (h : Host) (expireAt : Int) : Int := (expireAt - h.nowRealtimeMs).tdiv 1000

def ttlText (k : Bytes) (seconds : Int) : Bytes :=
  ascii "+ Key - " ++ k ++ ascii "\nTTL = " ++ decimal seconds ++ ascii "\n"

/-- GET and TTL answer with the whole of their lines. -/
structure Unclipped (h : Host) (k : Bytes) : Prop where
  get : ∀ v, h.db.keyspace.get k = some v → Answers h .get k (ascii "+" ++ v ++ ascii "\n")
  ttl : ∀ expireAt, h.db.expires.get k = some expireAt →
    Answers h .ttl k (ttlText k (seconds h expireAt))

theorem ttlText_length (k : Bytes) (s : Int) :
    (ttlText k s).length = k.length + (decimal s).length + 16 := by
  have front : (ascii "+ Key - ").length = 8 := rfl
  have middle : (ascii "\nTTL = ").length = 7 := rfl
  have line : (ascii "\n").length = 1 := rfl
  simp only [ttlText, List.length_append, front, middle, line]
  omega

theorem ttl_pair {k : Bytes} (word : IsWord k) : requestProc (ascii "TTL" ++ 32 :: k) = some .ttl ∧
    arg (tokenizeCommand (cstr (ascii "TTL" ++ 32 :: k)) maxTokens) 1 = k := by
  have ttl : IsWord (ascii "TTL") := by decide
  have found : lookupCommand (ascii "TTL") = some ⟨ascii "TTL", .ttl, 2⟩ := by decide
  exact requestProc_pair ttl word found (by decide)

section Live
variable {h : Host} {k v : Bytes} (there : h.db.keyspace.get k = some v)
  (live : past h.nowRealtimeMs (h.db.expires.get k) = false)
include there live

theorem answers_get (short : v.length + 2 < msgMax) :
    Answers h .get k (ascii "+" ++ v ++ ascii "\n") := by
  intro io payload _ gets key
  refine (get_response (getKey_iff.mpr ⟨gets, key⟩) io h).2 v ?_ short
  simp only [settle, cells_due, live, Bool.false_eq_true, if_false, cells_val, there]

theorem ttl_out (io : RequestIo) {payload : Bytes} {expireAt : Int}
    (asks : requestProc payload = some .ttl)
    (key : arg (tokenizeCommand (cstr payload) maxTokens) 1 = k)
    (due : h.db.expires.get k = some expireAt) :
    (commandExecute io h payload msgMax).2 =
      (respAddf ⟨[], msgMax⟩ (ttlText k (seconds h expireAt))).out := by
  subst key
  rw [due] at live
  have later : 0 ≤ expireAt - h.nowRealtimeMs := by
    rw [past_some, decide_eq_false_iff_not] at live
    omega
  have nonneg : 0 ≤ seconds h expireAt := Int.tdiv_nonneg later (by decide)
  have value : (dbGetTtl h.db (arg (tokenizeCommand (cstr payload) maxTokens) 1)
      h.nowRealtimeMs).2 = seconds h expireAt := by
    rw [dbGetTtl_value]
    simp only [settle, cells_due, live, Bool.false_eq_true, if_false, cells_val, there, due]
    rfl
  have missing : ¬ seconds h expireAt = -2 := by omega
  have untimed : ¬ seconds h expireAt = -1 := by omega
  rw [commandExecute_of_proc asks]
  simp only [runProc, cmdTtl, value, missing, untimed, if_false]
  rfl

theorem ttl_response (word : IsWord k) {expireAt : Int}
    (due : h.db.expires.get k = some expireAt) :
    (commandExecute {} h (ascii "TTL " ++ k) msgMax).2 =
      (ttlText k (seconds h expireAt)).take (msgMax - 1) := by
  have line : ascii "TTL " ++ k = ascii "TTL" ++ 32 :: k := rfl
  obtain ⟨asks, key⟩ := ttl_pair word
  rw [line, ttl_out there live {} asks key due, respAddf_clipped (by decide)]

/-- GET answers whole, and TTL does if the key leaves room for its digits. -/
theorem unclipped_iff_of_sent (sent : Sent k v) : Unclipped h k ↔
    ∀ expireAt, h.db.expires.get k = some expireAt →
      k.length + 17 < msgMax ∧ seconds h expireAt < 10 ^ (msgMax - 17 - k.length) := by
  have room := sent.room
  have nonempty := List.length_pos_iff.mpr sent.word.1
  have fits_iff {expireAt : Int} (due : h.db.expires.get k = some expireAt) :
      (ttlText k (seconds h expireAt)).length < msgMax ↔
        k.length + 17 < msgMax ∧ seconds h expireAt < 10 ^ (msgMax - 17 - k.length) := by
    have later : 0 ≤ expireAt - h.nowRealtimeMs := by
      rw [due, past_some, decide_eq_false_iff_not] at live
      omega
    have nonneg : 0 ≤ seconds h expireAt := Int.tdiv_nonneg later (by decide)
    have digit : 0 < (decimal (seconds h expireAt)).length := by
      rw [decimal, if_neg (not_lt.mpr nonneg), List.nil_append, List.length_map]
      exact Nat.length_toDigits_pos
    rw [ttlText_length]
    by_cases wide : k.length + 17 < msgMax
    · rw [← decimal_length_le nonneg (by omega)]
      omega
    · omega
  constructor
  · intro whole expireAt due
    refine (fits_iff due).mp ((respAddf_out_iff (by decide)).mp ?_)
    obtain ⟨asks, key⟩ := ttl_pair sent.word
    rw [← ttl_out there live {} asks key due]
    refine whole.ttl expireAt due {} _ ?_ asks key
    have three : (ascii "TTL").length = 3 := rfl
    rw [List.length_append, List.length_cons, three]
    omega
  · intro roomy
    refine ⟨fun w held => ?_, fun expireAt due io payload _ asks key => ?_⟩
    · obtain rfl : v = w := Option.some.inj (there.symm.trans held)
      exact answers_get there live (by omega)
    · rw [ttl_out there live io asks key due]
      exact respAddf_out ((fits_iff due).mpr (roomy expireAt due))

end Live

/-- Of the live keys that requests have stored, GET answers whole of all, and TTL of those that
leave room for the digits of their seconds. -/
theorem unclipped_iff {config : ServerConfig} {disk : FileIo.Disk}
    {nowMs nowRealtimeMs realtimeMs : Int} {io : BootIo} {h : Host}
    (boot : initServer config disk nowMs nowRealtimeMs realtimeMs io = some h)
    (start : SentOnly h.db.cells) (events : List Event) {k v : Bytes}
    (there : (run h events).db.keyspace.get k = some v)
    (live : past (run h events).nowRealtimeMs ((run h events).db.expires.get k) = false) :
    Unclipped (run h events) k ↔ ∀ expireAt, (run h events).db.expires.get k = some expireAt →
      k.length + 17 < msgMax ∧ seconds (run h events) expireAt < 10 ^ (msgMax - 17 - k.length) :=
  unclipped_iff_of_sent there live (sentOnly_run boot start events k v there)

theorem sentOnly_empty : SentOnly (firstHost {}).db.cells :=
  (dbCreate_cells 0).symm ▸ sentOnly_kept.empty

theorem unclipped_ten : Unclipped
    (run (firstHost {}) [.request (ascii "SET k v") {}, .request (ascii "EXPIRE k 10") {}])
    (ascii "k") := by
  refine (unclipped_iff (firstHost_boot {}) sentOnly_empty
    [.request (ascii "SET k v") {}, .request (ascii "EXPIRE k 10") {}] (v := ascii "v")
    (by decide +kernel) (by decide +kernel)).mpr fun expireAt due => ?_
  have stamp : (run (firstHost {}) [.request (ascii "SET k v") {},
      .request (ascii "EXPIRE k 10") {}]).db.expires.get (ascii "k") = some 10000 := by decide +kernel
  obtain rfl : 10000 = expireAt := Option.some.inj (stamp.symm.trans due)
  have ten : seconds (run (firstHost {}) [.request (ascii "SET k v") {},
      .request (ascii "EXPIRE k 10") {}]) 10000 = 10 := by decide +kernel
  have size : (ascii "k").length = 1 := rfl
  rw [ten, size, msgMax_eq]
  refine ⟨by decide, ?_⟩
  calc (10 : Int) < 10 ^ 2 := by decide
    _ ≤ 10 ^ (4096 - 17 - 1) := pow_le_pow_right₀ (by decide) (by decide)

theorem setex_asks {k : Bytes} (word : IsWord k) (nowRealtimeMs : Int) :
    requestRecord nowRealtimeMs (ascii "SETEX " ++ k ++ ascii " 9 v") =
      some ⟨.setex, k, ascii "v", expireTime nowRealtimeMs 9⟩ := by
  have name : IsWord (ascii "SETEX") := by decide
  have nine : IsWord (ascii "9") := by decide
  have value : IsWord (ascii "v") := by decide
  have line : [32].intercalate [ascii "SETEX", k, ascii "9", ascii "v"] =
      ascii "SETEX " ++ k ++ ascii " 9 v" := by
    simp only [List.intercalate_cons_cons, List.intercalate_singleton, List.append_assoc]
    rfl
  have tokens : tokenizeCommand (cstr (ascii "SETEX " ++ k ++ ascii " 9 v")) maxTokens =
      [ascii "SETEX", k, ascii "9", ascii "v"] := by
    rw [← line]
    exact tokenizeCommand_intercalate (by simp [name, word, nine, value])
  have found : lookupCommand (ascii "SETEX") = some ⟨ascii "SETEX", .setex, 4⟩ := by decide
  have parsed : parseSeconds (ascii "9") = some 9 := by decide
  rw [requestRecord_bind, requestProc_of_tokens tokens found rfl, tokens, Option.bind_some]
  have seconds : arg [ascii "SETEX", k, ascii "9", ascii "v"] 2 = ascii "9" := rfl
  rw [procRecord, seconds, parsed]
  rfl

theorem setex_stored {k : Bytes} (word : IsWord k)
    (short : (ascii "SETEX " ++ k ++ ascii " 9 v").length ≤ msgMax) :
    (run (firstHost {}) [.request (ascii "SETEX " ++ k ++ ascii " 9 v") {}]).nowRealtimeMs = 0 ∧
      (run (firstHost {}) [.request (ascii "SETEX " ++ k ++ ascii " 9 v") {}]).db.keyspace.get k =
        some (ascii "v") ∧
      (run (firstHost {}) [.request (ascii "SETEX " ++ k ++ ascii " 9 v") {}]).db.expires.get k =
        some 9000 := by
  have one (h : Host) (e : Event) : run h [e] = step h e := rfl
  obtain ⟨clock, cells⟩ := step_record (h := firstHost {}) {} rfl short (setex_asks word 0) rfl
  have start : (firstHost {}).nowRealtimeMs = 0 := rfl
  have stamp : expireTime 0 9 = 9000 := by decide
  rw [one, clock, start, ← cells_val, ← cells_due, cells, stamp]
  simp [Record.entry, Record.update, setexOp, Entry.apply, Op.apply]

def longKey : Bytes := List.replicate 4085 97

def longTtl : Host :=
  run (firstHost {}) [.request (ascii "SETEX " ++ longKey ++ ascii " 9 v") {}]

theorem longTtl_clipped :
    longTtl.db.keyspace.get longKey = some (ascii "v") ∧
      past longTtl.nowRealtimeMs (longTtl.db.expires.get longKey) = false ∧
      (commandExecute {} longTtl (ascii "TTL " ++ longKey) msgMax).2 =
        ascii "+ Key - " ++ longKey ++ ascii "\nT" ∧
      ¬ Unclipped longTtl longKey := by
  have size : longKey.length = 4085 := List.length_replicate
  have word : IsWord longKey := isWord_replicate (by decide) (by decide) (by decide)
  have short : (ascii "SETEX " ++ longKey ++ ascii " 9 v").length ≤ msgMax := by
    have name : (ascii "SETEX ").length = 6 := rfl
    have rest : (ascii " 9 v").length = 4 := rfl
    rw [List.length_append, List.length_append, name, rest, size, msgMax_eq]
    decide
  have sent : Sent longKey (ascii "v") := ⟨0, _, _, short, setex_asks word 0, rfl, rfl⟩
  obtain ⟨now, there, due⟩ := setex_stored word short
  rw [← longTtl] at now there due
  have live : past longTtl.nowRealtimeMs (longTtl.db.expires.get longKey) = false := by
    rw [due, now]
    rfl
  refine ⟨there, live, ?_, fun whole => ?_⟩
  · have text (s : Int) : ttlText longKey s =
        (ascii "+ Key - " ++ longKey ++ ascii "\nT") ++ (ascii "TL = " ++ decimal s ++ ascii "\n") := by
      have middle : ascii "\nTTL = " = ascii "\nT" ++ ascii "TL = " := rfl
      simp only [ttlText, middle, List.append_assoc]
    have front : (ascii "+ Key - " ++ longKey ++ ascii "\nT").length = msgMax - 1 := by
      have name : (ascii "+ Key - ").length = 8 := rfl
      have rest : (ascii "\nT").length = 2 := rfl
      rw [List.length_append, List.length_append, name, rest, size, msgMax_eq]
    rw [ttl_response there live word due, text, List.take_left' front]
  · have room := ((unclipped_iff_of_sent there live sent).mp whole 9000 due).1
    rw [size, msgMax_eq] at room
    exact absurd room (by decide)

end ByteKV.ResponseRoom
