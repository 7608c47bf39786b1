import ByteKV.ActiveSweep
import ByteKV.Capacity

/-! What a GET answers: after a SET of its key, and after the deadline of its key has
passed. SET leaves an old deadline standing, and EXPIRE and PERSIST do not look at it. -/
namespace ByteKV.Visibility
open Config Database AofRecord ServerState AofAppend ServerRun Command CommandLine
open StepCases StoreInvariant Capacity ExpiringLog
open ActiveSweep (Picked picked_iff dbActiveSweep_swept)

def notFound : Bytes := ascii "-ERR key not found\n"

def getKey (payload : Bytes) : Option Bytes :=
  let argv := tokenizeCommand (cstr payload) maxTokens
  match lookupCommand (arg argv 0) with
  | some entry =>
      if arityWrong entry argv.length then none
      else if entry.proc = .get then some (arg argv 1) else none
  | none => none

theorem getKey_iff {payload k : Bytes} : getKey payload = some k ↔
    requestProc payload = some .get ∧ arg (tokenizeCommand (cstr payload) maxTokens) 1 = k := by
  have bind : getKey payload = _ := requestProc_bind payload fun proc =>
    if proc = .get then some (arg (tokenizeCommand (cstr payload) maxTokens) 1) else none
  rw [bind, Option.bind_eq_some_iff]
  constructor
  · rintro ⟨proc, comes, key⟩
    split at key
    · rename_i get
      exact ⟨get ▸ comes, Option.some.inj key⟩
    · cases key
  · rintro ⟨comes, rfl⟩
    exact ⟨.get, comes, if_pos rfl⟩

theorem get_response {payload k : Bytes} (gets : getKey payload = some k) (io : RequestIo)
    (h : Host) :
    ((settle h.nowRealtimeMs h.db.cells).val k = none →
      (commandExecute io h payload msgMax).2 = notFound) ∧
    ∀ v, (settle h.nowRealtimeMs h.db.cells).val k = some v → v.length + 2 < msgMax →
      (commandExecute io h payload msgMax).2 = ascii "+" ++ v ++ ascii "\n" := by
  obtain ⟨comes, key⟩ := getKey_iff.mp gets
  have value := dbGet_value h.db k h.nowRealtimeMs
  rw [commandExecute_of_proc comes, runProc, cmdGet, key]
  rcases out : dbGet h.db k h.nowRealtimeMs with ⟨db, _ | w⟩
  all_goals
    rw [out] at value
    constructor
  · exact fun _ => rfl
  · exact fun v some => absurd (value.trans some) (by simp)
  · exact fun none => absurd (value.trans none) (by simp)
  · intro v some short
    obtain rfl : w = v := Option.some.inj (value.trans some)
    refine respAddf_out ?_
    have plus : (ascii "+").length = 1 := rfl
    have line : (ascii "\n").length = 1 := rfl
    rw [List.length_append, List.length_append, plus, line]
    omega

/-! Reading one's own SET. -/

/-- An accepted SET is followed by a GET of its key that answers its value. -/
def ReadsBack (h : Host) : Event → Prop
  | .request payload io => ∀ k v, h.exited = false → payload.length ≤ msgMax →
      requestRecord h.nowRealtimeMs payload = some ⟨.set, k, v, 0⟩ →
      (commandExecute io h payload msgMax).2 = ascii "+OK\n" →
      ∀ getPayload getIo, getKey getPayload = some k →
        (commandExecute getIo (step h (.request payload io)) getPayload msgMax).2 =
          ascii "+" ++ v ++ ascii "\n"
  | _ => True

def SetsLive (h : Host) : Event → Prop
  | .request payload _ => ∀ k v, h.exited = false → payload.length ≤ msgMax →
      requestRecord h.nowRealtimeMs payload = some ⟨.set, k, v, 0⟩ →
      past h.nowRealtimeMs (h.db.expires.get k) = false
  | _ => True

theorem getKey_get {k : Bytes} (word : IsWord k) : getKey (ascii "GET" ++ 32 :: k) = some k := by
  have get : IsWord (ascii "GET") := by decide
  have found : lookupCommand (ascii "GET") = some ⟨ascii "GET", .get, 2⟩ := by decide
  exact getKey_iff.mpr (requestProc_pair get word found (by decide))

theorem step_record {h : Host} {payload : Bytes} {r : Record} (io : RequestIo)
    (running : h.exited = false) (short : payload.length ≤ msgMax)
    (asks : requestRecord h.nowRealtimeMs payload = some r)
    (ok : (r.entry.apply h.db.cells).2 = true) :
    (step h (.request payload io)).nowRealtimeMs = h.nowRealtimeMs ∧
      (step h (.request payload io)).db.cells = (r.entry.apply h.db.cells).1 := by
  have dispatch := dispatch_cells h.db r
  have makes : mutation h (.request payload io) = some r :=
    mutation_iff.mpr ⟨⟨running, short⟩, asks, dispatch.2.trans ok⟩
  have frame := (aofAppend_frame io.append { h with db := (replayDispatch h.db r.decoded).1 } r).1
  rw [step_mutated makes, frame.nowRealtimeMs, frame.db, dispatch.1]
  exact ⟨rfl, rfl⟩

theorem step_set {h : Host} {payload k v : Bytes} (io : RequestIo) (running : h.exited = false)
    (short : payload.length ≤ msgMax)
    (asks : requestRecord h.nowRealtimeMs payload = some ⟨.set, k, v, 0⟩) :
    (step h (.request payload io)).nowRealtimeMs = h.nowRealtimeMs ∧
      (step h (.request payload io)).db.cells.val k = some v ∧
      (step h (.request payload io)).db.cells.due k = h.db.expires.get k := by
  obtain ⟨clock, cells⟩ := step_record io running short asks rfl
  refine ⟨clock, ?_⟩
  rw [cells]
  simp [Record.entry, Record.update, setOp, Entry.apply, Op.apply]

theorem readsBack_iff (h : Host) (e : Event) : ReadsBack h e ↔ SetsLive h e := by
  cases e with
  | request payload io =>
    refine forall₅_congr fun k v running short asks => ?_
    obtain ⟨clock, val, due⟩ := step_set io running short asks
    have ok : (commandExecute io h payload msgMax).2 = ascii "+OK\n" :=
      (mutation_response asks).mpr (by rw [accepted, asks]; rfl)
    have fits : v.length + 2 < msgMax := by
      have room : k.length + v.length + 4 ≤ payload.length := requestRecord_length asks
      omega
    constructor
    · intro back
      by_contra passed
      rw [Bool.not_eq_false] at passed
      have gets := getKey_get (requestRecord_word asks)
      have gone : (settle (step h (.request payload io)).nowRealtimeMs
          (step h (.request payload io)).db.cells).val k = none := by
        simp only [settle, clock, due, passed, if_true]
      have twice := (back ok _ {} gets).symm.trans ((get_response gets {} _).1 gone)
      exact absurd (congrArg List.head? twice) (by simp [notFound, ascii])
    · intro live _ getPayload getIo gets
      refine (get_response gets getIo _).2 v ?_ fits
      simp only [settle, clock, due, live, Bool.false_eq_true, if_false]
      exact val
  | _ => exact Iff.rfl

theorem readsBack_run_iff (h : Host) (events : List Event) :
    Transition.Along step ReadsBack h events ↔ Transition.Along step SetsLive h events :=
  ⟨fun back => back.mono fun g e => (readsBack_iff g e).mp,
    fun live => live.mono fun g e => (readsBack_iff g e).mpr⟩

/-- Sweeps are switched off, and nobody reads the key in time. -/
def unswept : Host :=
  run (firstHost lazyConfig) [.request (ascii "SETEX k 1 v") {}, .tick 2000 2000 {}]

theorem setex_set_lost :
    (commandExecute {} unswept (ascii "SET k w") msgMax).2 = ascii "+OK\n" ∧
      (commandExecute {} (step unswept (.request (ascii "SET k w") {})) (ascii "GET k") msgMax).2 =
        notFound := by
  decide +kernel

/-! Expired keys. -/

/-- `k` is not there, or its deadline has passed by `t`. -/
def Gone (k : Bytes) (t : Int) (c : Cells Bytes Bytes Int) : Prop :=
  c.val k = none ∨ past t (c.due k) = true

def Sets (k : Bytes) (h : Host) : Event → Prop
  | .request payload _ => ∃ r ∈ requestRecord h.nowRealtimeMs payload, r.key = k ∧
      (r.op = .set ∨ r.op = .setex)
  | _ => False

/-- One of the sweeps of the loop picks the bucket of `k`, whose deadline has passed. -/
def LoopPicks (k : Bytes) (released : Bytes → Bytes) (start budgetMs : Int) :
    List SweepRound → (current : Int) → Host → Prop
  | [], _, _ => False
  | round :: rounds, current, h =>
      let sample := h.config.activeExpireKeysPerRound.toNat
      let swept := dbActiveSweep h.db sample h.nowRealtimeMs round.draws released
      current - start < budgetMs ∧ (Picked h.db sample h.nowRealtimeMs round.draws k ∨
        (¬ swept.2 * 100 / sample < h.config.activeExpirePercent.toNat ∧
          LoopPicks k released start budgetMs rounds round.nowMs { h with db := swept.1 }))

def CronPicks (k : Bytes) (io : TickIo) (h : Host) : Prop :=
  h.config.activeExpireEnabled = true ∧
    LoopPicks k io.released h.nowMs ((Int.tdiv 1000 h.config.hz).tdiv 4) io.rounds h.nowMs h

/-- A request updates the deadline of a key that is still in the keyspace, to none or to
one that is not before `t`; or a sweep that picks the key reads it, once freed, as another one. -/
def Revives (k : Bytes) (t : Int) (h : Host) : Event → Prop
  | .request payload io => (h.db.keyspace.get k).isSome ∧
      ∃ r ∈ mutation h (.request payload io), r.key = k ∧
        (r.op = .persist ∨ (r.op = .expire ∧ t ≤ r.expireAt))
  | .tick nowMs nowRealtimeMs io => io.released k ≠ k ∧ CronPicks k io { h with
      nowMs := nowMs, nowRealtimeMs := nowRealtimeMs, cronloops := h.cronloops + 1 }
  | _ => False

def TickFrom (t : Int) : Event → Prop
  | .tick _ nowRealtimeMs _ => t ≤ nowRealtimeMs
  | _ => True

instance (k : Bytes) (h : Host) : (e : Event) → Decidable (Sets k h e)
  | .request _ _ => inferInstanceAs (Decidable (∃ _ ∈ _, _))
  | .tick _ _ _ | .child _ _ | .childKilled | .childSignal | .signal | .shutdown =>
      inferInstanceAs (Decidable False)

instance (db : Db) (sampleSize : Nat) (nowMs : Int) (draws : List Nat) (k : Bytes) :
    Decidable (Picked db sampleSize nowMs draws k) :=
  decidable_of_iff _ (picked_iff db sampleSize nowMs draws k).symm

def decideLoopPicks (k : Bytes) (released : Bytes → Bytes) (start budgetMs : Int) :
    (rounds : List SweepRound) → (current : Int) → (h : Host) →
      Decidable (LoopPicks k released start budgetMs rounds current h)
  | [], _, _ => inferInstanceAs (Decidable False)
  | round :: rounds, _, h =>
      let swept := dbActiveSweep h.db h.config.activeExpireKeysPerRound.toNat h.nowRealtimeMs
        round.draws released
      have := decideLoopPicks k released start budgetMs rounds round.nowMs { h with db := swept.1 }
      inferInstanceAs (Decidable (_ ∧ (_ ∨ (_ ∧ _))))

instance (k : Bytes) (io : TickIo) (h : Host) : Decidable (CronPicks k io h) :=
  have := decideLoopPicks k io.released h.nowMs ((Int.tdiv 1000 h.config.hz).tdiv 4) io.rounds
    h.nowMs h
  inferInstanceAs (Decidable (_ ∧ _))

instance (k : Bytes) (t : Int) (h : Host) : (e : Event) → Decidable (Revives k t h e)
  | .request _ _ => inferInstanceAs (Decidable (_ ∧ ∃ _ ∈ _, _))
  | .tick _ _ _ => inferInstanceAs (Decidable (_ ≠ _ ∧ _))
  | .child _ _ | .childKilled | .childSignal | .signal | .shutdown =>
      inferInstanceAs (Decidable False)

instance (t : Int) : (e : Event) → Decidable (TickFrom t e)
  | .tick _ _ _ => inferInstanceAs (Decidable (_ ≤ _))
  | .request _ _ | .child _ _ | .childKilled | .childSignal | .signal | .shutdown =>
      inferInstanceAs (Decidable True)

section Gone
variable {k : Bytes} {t : Int} {c : Cells Bytes Bytes Int}

theorem Gone.refuse (gone : Gone k t c) {r : Record} (failed : (r.entry.apply c).2 = false) :
    Gone k t (r.entry.apply c).1 := by
  by_cases absent : c.val k = none
  · have same := Entry.apply_refused failed k
    rw [absent, Option.isSome_none, Bool.false_eq_true, iff_false,
      Option.not_isSome_iff_eq_none] at same
    exact Or.inl same
  · have passed := gone.resolve_left absent
    have held := Option.isSome_iff_ne_none.mpr absent
    obtain ⟨d, due⟩ : ∃ d, c.due k = some d := by
      rw [← Option.ne_none_iff_exists']
      exact fun none => by simp [none] at passed
    right
    by_cases hk : k = r.entry.key
    · subst hk
      have refused : ¬ (r.entry.apply c).2 = true := by simp [failed]
      rw [Entry.apply_accepted] at refused
      unfold Entry.apply
      cases hop : r.entry.op with
      | refuse => exact passed
      | keep => simp [hop, due] at refused
      | till d' | drop => simp [hop, held] at refused
      | _ => simp [hop] at refused
    · exact (r.entry.apply_of_ne c hk).2 ▸ passed

theorem Gone.erase (gone : Gone k t c) (j : Bytes) : Gone k t (c.erase j) := by
  by_cases hj : k = j
  · exact Or.inl (by simp [Cells.erase, hj])
  · simpa [Gone, Cells.erase, hj] using gone

theorem Gone.sweep {db : Db} (gone : Gone k t db.cells) {sampleSize : Nat} {nowMs : Int}
    {draws : List Nat} {released : Bytes → Bytes}
    (intact : Picked db sampleSize nowMs draws k → released k = k) :
    Gone k t (dbActiveSweep db sampleSize nowMs draws released).1.cells := by
  obtain ⟨keys, mem, swept⟩ := dbActiveSweep_swept db sampleSize nowMs draws released
  have val := swept.val k
  have due := swept.due k
  by_cases freed : k ∈ keys
  · have read : k ∈ keys.map released := List.mem_map.mpr ⟨k, freed, intact ((mem k).mp freed)⟩
    exact Or.inl (val.trans (if_pos read))
  · rcases gone with absent | passed
    · exact Or.inl (val.trans (ite_eq_left_iff.mpr fun _ => absent))
    · refine Or.inr ?_
      change past t ((dbActiveSweep db sampleSize nowMs draws released).1.expires.get k) = true
      rw [due, if_neg freed]
      exact passed

theorem Gone.loop {released : Bytes → Bytes} {start budgetMs : Int} {rounds : List SweepRound}
    {current : Int} {h : Host} (gone : Gone k t h.db.cells)
    (intact : LoopPicks k released start budgetMs rounds current h → released k = k) :
    Gone k t (activeExpireLoop released start budgetMs rounds current h).db.cells := by
  induction rounds generalizing current h with
  | nil => exact gone
  | cons round rounds ih =>
    rw [activeExpireLoop]
    split
    · rename_i early
      have swept := gone.sweep fun picked => intact ⟨early, Or.inl picked⟩
      simp only
      split
      · exact swept
      · rename_i more
        exact ih swept fun later => intact ⟨early, Or.inr ⟨more, later⟩⟩
    · exact gone

theorem Gone.cron {io : TickIo} {h : Host} (gone : Gone k t h.db.cells)
    (intact : CronPicks k io h → io.released k = k) :
    Gone k t (activeExpireCron io h).db.cells := by
  rw [activeExpireCron]
  split
  · exact gone
  · rename_i enabled
    exact gone.loop fun picks => intact ⟨by simpa using enabled, picks⟩

theorem Gone.accept (gone : Gone k t c) {r : Record} (ok : (r.entry.apply c).2 = true)
    (unset : r.key = k → r.op ≠ .set ∧ r.op ≠ .setex)
    (unrevived : (c.val k).isSome → r.key = k → r.op ≠ .persist ∧ (r.op = .expire → r.expireAt < t)) :
    Gone k t (r.entry.apply c).1 := by
  by_cases hk : k = r.key
  · subst hk
    obtain ⟨op, key, value, expireAt⟩ := r
    cases op with
    | set => exact absurd rfl (unset rfl).1
    | setex => exact absurd rfl (unset rfl).2
    | del => exact Or.inl (by simp [Record.entry, Record.update, Entry.apply, Op.apply])
    | persist =>
      left
      by_contra some
      have held : (c.val key).isSome := Option.isSome_iff_ne_none.mpr some
      exact (unrevived held rfl).1 rfl
    | expire =>
      by_cases held : (c.val key).isSome
      · have early := (unrevived held rfl).2 rfl
        by_cases pos : expireAt > 0
        · right
          simpa [Record.entry, Record.update, expireOp, pos, Entry.apply, Op.apply,
            held] using early
        · simp [Record.entry, Record.update, expireOp, pos, Entry.apply, Op.apply] at ok
      · have absent : c.val key = none := Option.not_isSome_iff_eq_none.mp held
        by_cases pos : expireAt > 0 <;>
          simp [Record.entry, Record.update, expireOp, pos, Entry.apply, Op.apply, held] at ok
  · have ne : k ≠ r.entry.key := hk
    obtain ⟨val, due⟩ := r.entry.apply_of_ne c ne
    rwa [Gone, val, due]

theorem Gone.step {h : Host} {e : Event} (gone : Gone k t h.db.cells) (unset : ¬ Sets k h e)
    (unrevived : ¬ Revives k t h e) : Gone k t (step h e).db.cells := by
  cases e with
  | tick nowMs nowRealtimeMs io =>
    simp only [ServerRun.step]
    split
    · exact gone
    · split
      · exact gone
      · rw [beforeSleep_db]
        exact gone.cron (h := { h with
            nowMs := nowMs, nowRealtimeMs := nowRealtimeMs, cronloops := h.cronloops + 1 })
          fun picks => by_contra fun other => unrevived ⟨other, picks⟩
  | request payload io =>
    refine step_store gone (fun r makes => ?_) (fun r failed => gone.refuse failed)
      (fun j => gone.erase j) trivial
    refine gone.accept (mutation_stored makes) (fun hk => ⟨fun op => ?_, fun op => ?_⟩)
      fun held hk => ⟨fun op => ?_, fun op => ?_⟩
    · exact unset ⟨r, mutation_asks makes, hk, Or.inl op⟩
    · exact unset ⟨r, mutation_asks makes, hk, Or.inr op⟩
    · exact unrevived ⟨held, r, makes, hk, Or.inl op⟩
    · by_contra late
      exact unrevived ⟨held, r, makes, hk, Or.inr ⟨op, not_lt.mp late⟩⟩
  | _ =>
    refine step_store gone (fun r makes => ?_) (fun r failed => gone.refuse failed)
      (fun j => gone.erase j) trivial
    cases makes

theorem step_clock {h : Host} {e : Event} (from_t : TickFrom t e) (now : t ≤ h.nowRealtimeMs) :
    t ≤ (ServerRun.step h e).nowRealtimeMs := by
  have out := stepped h e
  generalize ServerRun.step h e = h' at out ⊢
  cases out with
  | quiet _ q => exact q.clock ▸ now
  | @mutated payload io r asks makes stored =>
    have frame := (aofAppend_frame io.append
      { h with db := (replayDispatch h.db r.decoded).1 } r).1
    rw [frame.nowRealtimeMs]
    exact now
  | @ticked nowMs nowRealtimeMs io =>
    obtain ⟨g, hg, outcome⟩ := beforeSleep_cases nowMs io h (I := fun g => t ≤ g.nowRealtimeMs) from_t
      (fun g key _ _ hg => hg) (fun g g' q hg => q.clock ▸ hg)
    cases outcome with
    | quiet q => exact q.clock ▸ hg
    | started idle eq => exact eq ▸ hg
    | ended busy stopped => exact stopped.clock ▸ hg
    | installed c ino done => exact done.clock ▸ hg
  | childChanged makes c c' child same q => exact q.clock ▸ now
  | _ => exact now

/-- While nothing sets the key or revives it, it is not found at any later time. -/
theorem gone_run {h : Host} (expired : past t (h.db.expires.get k) = true)
    (now : t ≤ h.nowRealtimeMs) {events : List Event}
    (later : Transition.Along ServerRun.step
      (fun g e => TickFrom t e ∧ ¬ Sets k g e ∧ ¬ Revives k t g e) h events)
    {payload : Bytes} (gets : getKey payload = some k) (io : RequestIo) :
    (commandExecute io (run h events) payload msgMax).2 = notFound := by
  obtain ⟨gone, clock⟩ : Gone k t (run h events).db.cells ∧ t ≤ (run h events).nowRealtimeMs := by
    refine Transition.run_invariant (I := fun g => Gone k t g.db.cells ∧ t ≤ g.nowRealtimeMs)
      (fun g e inv ok => ?_) ⟨Or.inr expired, now⟩ later
    exact ⟨inv.1.step ok.2.1 ok.2.2, step_clock ok.1 inv.2⟩
  refine (get_response gets io _).1 ?_
  rw [settle, ite_eq_left_iff]
  intro live
  exact gone.resolve_right fun passed => live (past_mono clock passed)

end Gone

theorem gone_run_unswept :
    (commandExecute {} (run unswept [.request (ascii "DEL k") {}, .tick 3000 3000 {},
      .request (ascii "EXPIRE k 5") {}, .request (ascii "PERSIST k") {}])
      (ascii "GET k") msgMax).2 = notFound := by
  have expired : past 2000 (unswept.db.expires.get (ascii "k")) = true := by decide
  exact gone_run expired (by decide) (by decide +kernel) (by decide) {}

theorem persist_revives :
    past 2000 (unswept.db.expires.get (ascii "k")) = true ∧ 2000 ≤ unswept.nowRealtimeMs ∧
      (commandExecute {} unswept (ascii "GET k") msgMax).2 = notFound ∧
      (commandExecute {} (run unswept [.request (ascii "PERSIST k") {}]) (ascii "GET k") msgMax).2 =
        ascii "+v\n" := by
  decide +kernel

end ByteKV.Visibility
