import ByteKV.StoreInvariant

/-! Sizes: what a request of at most `MSG_MAX` bytes can store, and what one record of
the log has room for. The two limits are set apart from each other. -/
namespace ByteKV.Capacity
open Config Database HashTable AofRecord ServerState AofRewrite ServerRun StepCases
open StoreInvariant Command CommandLine ExpiringLog

theorem lookupCommand_spec {name : Bytes} {entry : CommandEntry}
    (found : lookupCommand name = some entry) : entry ∈ commandTable ∧ 3 ≤ name.length := by
  have known : ∀ e ∈ commandTable, 3 ≤ e.name.length := by decide
  rw [lookupCommand] at found
  have member := List.mem_of_find?_eq_some found
  have same : name.map toLower = entry.name.map toLower := by simpa using List.find?_some found
  have len := congrArg List.length same
  rw [List.length_map, List.length_map] at len
  exact ⟨member, len ▸ known entry member⟩

theorem mutating_arity {entry : CommandEntry} (member : entry ∈ commandTable) {argc : Nat}
    (right : arityWrong entry argc = false) {nowRealtimeMs : Int} {argv : List Bytes} {r : Record}
    (asks : procRecord nowRealtimeMs argv entry.proc = some r) : 2 ≤ argc := by
  have known : ∀ e ∈ commandTable,
      e.proc = .keys ∨ e.proc = .info ∨ e.proc = .bgrewriteaof ∨ 2 ≤ e.arity ∨ e.arity ≤ -2 := by
    decide
  simp only [arityWrong, Bool.or_eq_false_iff, Bool.and_eq_false_iff,
    decide_eq_false_iff_not] at right
  rcases known entry member with proc | proc | proc | low | low
  · simp [proc, procRecord] at asks
  · simp [proc, procRecord] at asks
  · simp [proc, procRecord] at asks
  · omega
  · omega

theorem procRecord_length {nowRealtimeMs : Int} {argv : List Bytes} {proc : CommandProc}
    {r : Record} (asks : procRecord nowRealtimeMs argv proc = some r) :
    (arg argv 0).length + r.key.length + r.value.length ≤ argv.flatten.length := by
  have args : (arg argv 0).length + (arg argv 1).length +
      max (arg argv 2).length (arg argv 3).length ≤ argv.flatten.length := by
    rcases argv with _ | ⟨a, _ | ⟨b, _ | ⟨c, _ | ⟨d, rest⟩⟩⟩⟩ <;> simp [arg] <;> omega
  cases proc with
  | set | persist | del =>
    obtain rfl := Option.some.inj asks
    simp only [List.length_nil]
    omega
  | setex | expire =>
    obtain ⟨seconds, -, rfl⟩ := Option.map_eq_some_iff.mp asks
    simp only [List.length_nil]
    omega
  | _ => simp [procRecord] at asks

theorem requestRecord_argv {nowRealtimeMs : Int} {payload : Bytes} {r : Record}
    (asks : requestRecord nowRealtimeMs payload = some r) :
    3 ≤ (arg (tokenizeCommand (cstr payload) maxTokens) 0).length ∧
      2 ≤ (tokenizeCommand (cstr payload) maxTokens).length ∧ ∃ proc,
        procRecord nowRealtimeMs (tokenizeCommand (cstr payload) maxTokens) proc = some r := by
  rw [requestRecord_bind] at asks
  obtain ⟨proc, comes, asks⟩ := Option.bind_eq_some_iff.mp asks
  obtain ⟨entry, found, right, rfl⟩ := requestProc_iff.mp comes
  obtain ⟨member, word⟩ := lookupCommand_spec found
  exact ⟨word, mutating_arity member right asks, entry.proc, asks⟩

theorem requestRecord_length {nowRealtimeMs : Int} {payload : Bytes} {r : Record}
    (asks : requestRecord nowRealtimeMs payload = some r) :
    r.key.length + r.value.length + 4 ≤ payload.length := by
  have tokens := tokenizeCommand_length payload
  obtain ⟨word, argc, proc, asks⟩ := requestRecord_argv asks
  have := procRecord_length asks
  omega

theorem procRecord_key {nowRealtimeMs : Int} {argv : List Bytes} {proc : CommandProc} {r : Record}
    (asks : procRecord nowRealtimeMs argv proc = some r) : r.key = arg argv 1 := by
  cases proc with
  | set | persist | del =>
    obtain rfl := Option.some.inj asks
    rfl
  | setex | expire =>
    obtain ⟨seconds, -, rfl⟩ := Option.map_eq_some_iff.mp asks
    rfl
  | _ => simp [procRecord] at asks

theorem requestRecord_word {nowRealtimeMs : Int} {payload : Bytes} {r : Record}
    (asks : requestRecord nowRealtimeMs payload = some r) : IsWord r.key := by
  obtain ⟨-, argc, proc, asks⟩ := requestRecord_argv asks
  rw [procRecord_key asks, arg, List.getD_eq_getElem?_getD, List.getElem?_eq_getElem argc]
  exact tokenizeCommand_words payload _ (List.getElem_mem argc)

def Fits (c : Cells Bytes Bytes Int) : Prop :=
  ∀ k v, c.val k = some v → k.length + v.length ≤ aofPayloadMax

theorem fits_kept : Kept (fun r => r.key.length + r.value.length ≤ aofPayloadMax) Fits := by
  refine .of_sub (by simp [Fits, Cells.empty]) (fun {c r} room fits k v hv => ?_)
    (fun sub fits k v hv => fits k v (sub.val k v hv))
  by_cases hk : k = r.key
  · subst hk
    rcases Entry.apply_val_self (e := r.entry) hv with old | new
    · exact fits _ v old
    · exact Record.entry_val new ▸ room
  · exact fits k v ((r.entry.apply_of_ne c hk).1 ▸ hv)

theorem childRecord_fits {db : Db} (fits : Fits db.cells) {e : HtEntry Bytes}
    (held : e ∈ db.keyspace.entries) : (aofSerialize aofRecordMax (childRecord db e)).isSome := by
  have room := fits e.key e.val (db.keyspace.mem_entries_iff.mp held)
  rw [aofSerialize_isSome_iff]
  unfold childRecord
  split <;> exact room

/-- Every record of a run, and every entry the child may visit at its end, can be
serialized exactly when no accepted request brings a key and a value too long for a
record together. -/
theorem serializable_iff {config : ServerConfig} {disk : FileIo.Disk} {io : BootIo}
    {nowMs nowRealtimeMs realtimeMs : Int} {h : Host}
    (boot : initServer config disk nowMs nowRealtimeMs realtimeMs io = some h)
    (empty : h.db.cells = .empty) (events : List Event) :
    (Transition.Along step
        (fun g e => ∀ r ∈ mutation g e, (aofSerialize aofRecordMax r).isSome) h events ∧
      ∀ e ∈ (run h events).db.keyspace.entries,
        (aofSerialize aofRecordMax (childRecord (run h events).db e)).isSome) ↔
      Transition.Along step
        (fun g e => ∀ r ∈ mutation g e, r.key.length + r.value.length ≤ aofPayloadMax)
        h events := by
  constructor
  · exact fun ok => ok.1.mono fun g e all r makes => aofSerialize_isSome_iff.mp (all r makes)
  · intro short
    refine ⟨short.mono fun g e all r makes => aofSerialize_isSome_iff.mpr (all r makes), ?_⟩
    have childless := (RewriteInvariant.initServer_spec boot).1.child
    have start : Stores Fits h := ⟨empty ▸ fits_kept.empty, by simp [childless]⟩
    have stores := stores_run fits_kept start (short.mono fun g e all =>
      ⟨all, sweepKeeps_of_sub (fun sub fits k v hv => fits k v (sub.val k v hv)) g e⟩)
    exact fun e held => childRecord_fits stores.store held

def longestSet : List Event :=
  [.request (ascii "SET k " ++ List.replicate 4068 97) {}, .request (ascii "EXPIRE k 9") {},
    .request (ascii "SETEX x 5 y") {}, .request (ascii "DEL x") {}, .request (ascii "SET x z") {}]

theorem serializable_iff_longestSet :
    ((run (firstHost {}) longestSet).db.keyspace.entries.all fun e =>
      (aofSerialize aofRecordMax
        (childRecord (run (firstHost {}) longestSet).db e)).isSome) = true := by
  have both := (serializable_iff (firstHost_boot {}) (dbCreate_cells 0) longestSet).mpr
    (by decide +kernel)
  exact List.all_eq_true.mpr both.2

/-- "SET k " and 4080 letters, which is less than `MSG_MAX`. -/
def longSet : Bytes := ascii "SET k " ++ List.replicate 4080 97

theorem longSet_unserializable :
    longSet.length ≤ msgMax ∧
      (mutation (firstHost {}) (.request longSet {})).any
        (fun r => (aofSerialize aofRecordMax r).isNone) = true ∧
      (step (firstHost {}) (.request longSet {})).db.keyspace.entries.any (fun e =>
        (aofSerialize aofRecordMax
          (childRecord (step (firstHost {}) (.request longSet {})).db e)).isNone) = true := by
  decide +kernel

end ByteKV.Capacity
