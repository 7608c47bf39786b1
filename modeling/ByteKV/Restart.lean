import ByteKV.LogTracking

/-! Restarts: what loading the log at time `t` makes of a run, from the first record
of a fresh log on. -/
namespace ByteKV.Restart
open Config Database HashTable FileIo AofRecord ServerState AofAppend AofRewrite ServerRun
open StepCases RewriteInvariant StoreInvariant LogInvariant LogTracking Command ExpiringLog
open AofLoad Recovery

/-! Restarts before any deadline. -/

/-- Writes succeed, records fit, and up to `t` no clock has reached a logged deadline. -/
def InTime (t : Int) (h : Host) : Event → Prop
  | .request payload io => .error ∉ io.append.writes ∧
      ∀ r ∈ mutation h (.request payload io),
        r.key.length + r.value.length ≤ aofPayloadMax ∧ (0 < r.expireAt → t ≤ r.expireAt)
  | .tick _ nowRealtimeMs _ => nowRealtimeMs ≤ t
  | .child realtimeMs _ => realtimeMs ≤ t
  | _ => True

instance (t : Int) (h : Host) : (e : Event) → Decidable (InTime t h e)
  | .request _ _ => inferInstanceAs (Decidable (_ ∧ _))
  | .tick _ _ _ | .child _ _ => inferInstanceAs (Decidable (_ ≤ _))
  | .childKilled | .childSignal | .signal | .shutdown => inferInstanceAs (Decidable True)

def Late (t : Int) (c : Cells Bytes Bytes Int) : Prop := ∀ k d, c.due k = some d → t ≤ d

section Late
variable {t : Int} {c : Cells Bytes Bytes Int}

theorem Late.not_past (late : Late t c) {now : Int} (early : now ≤ t) (k : Bytes) :
    past now (c.due k) = false := by
  cases hd : c.due k with
  | none => rfl
  | some d =>
    have := late k d hd
    simp only [past_some, decide_eq_false_iff_not]
    omega

theorem Late.apply (late : Late t c) {r : Record} (deadline : 0 < r.expireAt → t ≤ r.expireAt) :
    Late t (r.entry.apply c).1 := by
  intro k d hd
  by_cases hk : k = r.key
  · subst hk
    rcases Entry.apply_due_self (e := r.entry) hd with old | new
    · exact late _ d old
    · obtain ⟨rfl, pos⟩ := Record.entry_due new
      exact deadline pos
  · exact late k d ((r.entry.apply_of_ne c hk).2 ▸ hd)

theorem InTime.safe {h : Host} {e : Event} (inTime : InTime t h e) (late : Late t h.db.cells) :
    SafeStep t h e := by
  cases e with
  | request payload io =>
    refine ⟨inTime.1, fun r makes => ?_⟩
    obtain ⟨fits, deadline⟩ := inTime.2 r makes
    have unexpired : past t r.entry.deadline = false := by
      rw [r.past_deadline, decide_eq_false_iff_not]
      intro passed
      have := deadline passed.1
      omega
    exact ⟨fits, Entry.safe_of_late (requestRecord_stamped (mutation_asks makes))
      (late.not_past (le_refl t) _) unexpired⟩
  | tick nowMs nowRealtimeMs io =>
    refine ⟨inTime, fun key passed => ?_⟩
    exact absurd (passed.symm.trans (late.not_past inTime key)) (by decide)
  | child realtimeMs io => exact inTime
  | _ => trivial

theorem late_kept (t : Int) : Kept (fun r => 0 < r.expireAt → t ≤ r.expireAt) (Late t) :=
  .of_sub (by simp [Late, Cells.empty]) (fun deadline late => late.apply deadline)
    (fun sub late k d hd => late k d (sub.due k d hd))

theorem InTime.records {h : Host} {e : Event} (inTime : InTime t h e) :
    ∀ r ∈ mutation h e, 0 < r.expireAt → t ≤ r.expireAt := by
  cases e with
  | request payload io => exact fun r makes => (inTime.2 r makes).2
  | _ => simp [mutation]

end Late

theorem fresh_inStep {config : ServerConfig} {disk : Disk} {io : BootIo}
    {nowMs nowRealtimeMs realtimeMs t : Int} {h : Host} (fresh : Fresh config disk io)
    (boot : initServer config disk nowMs nowRealtimeMs realtimeMs io = some h)
    (early : nowRealtimeMs ≤ t) : InStep t h := by
  obtain ⟨db, clock, child, live, inv⟩ := fresh_boot fresh boot
  have booted := (initServer_spec boot).1
  have childless : ∀ c, h.child ≠ some c := by simp [child]
  refine ⟨inv.toSound, ⟨?_, clock.trans_le early, fun c hc => absurd hc (childless c),
    initServer_stores consistent_kept (fun _ _ => trivial) boot,
    fun _ c hc => absurd hc (childless c)⟩, ?_⟩
  · rw [booted.config, fresh.enabled]
  · refine ⟨realtimeMs, [], by simp, live, ?_⟩
    rw [db, dbCreate_cells]
    exact .refl _

/-- Replay rebuilds the store: a run from a fresh log, with any rewrites on the way,
leaves a file that loads clean and gives both tables back. -/
theorem aofLoad_rebuilds {config : ServerConfig} {disk : Disk} {io : BootIo}
    {nowMs nowRealtimeMs realtimeMs t : Int} {h : Host} (fresh : Fresh config disk io)
    (boot : initServer config disk nowMs nowRealtimeMs realtimeMs io = some h)
    (early : nowRealtimeMs ≤ t) (events : List Event)
    (inTime : Transition.Along step (InTime t) h events) (startMs : Int) {junk : Bytes}
    (hjunk : junk.length = aofRecordMax) {loadIo : LoadIo} (hio : loadIo.Ok) :
    ∃ out, aofLoad (run h events).file (dbCreate startMs) (fun _ => t) junk loadIo =
        .loaded out ∧
      Clean (run h events).live out ∧
      out.db.keyspace.get = (run h events).db.keyspace.get ∧
      out.db.expires.get = (run h events).db.expires.get := by
  obtain ⟨db, -, child, -⟩ := fresh_boot fresh boot
  have start : InStep t h ∧ Stores (Late t) h := by
    refine ⟨fresh_inStep fresh boot early, ?_, by simp [child]⟩
    rw [db, dbCreate_cells]
    exact (late_kept t).empty
  obtain ⟨inStep, late, -⟩ : InStep t (run h events) ∧ Stores (Late t) (run h events) :=
    Transition.run_invariant (I := fun g => InStep t g ∧ Stores (Late t) g)
      (fun g e now inTime => ⟨now.1.step (inTime.safe now.2.store),
        stores_step (late_kept t) now.2 inTime.records
          ((late_kept t).sweepKeeps (inTime.safe now.2.store).unclobbered)⟩) start inTime
  obtain ⟨out, load, clean, cells⟩ := inStep.log.load startMs hjunk hio
  rw [settle_eq_self (late.not_past (le_refl t))] at cells
  exact ⟨out, inStep.inv.rewrite.file ▸ load, clean, congrArg Cells.val cells,
    congrArg Cells.due cells⟩

theorem aofLoad_rebuilds_sets :
    let h := run (firstHost {}) [.request (ascii "SET a 1") {}, .request (ascii "BGREWRITEAOF") {},
      .child 0 {}, .child 0 {}, .request (ascii "SETEX b 100 2") {}, .child 0 {}, .tick 1000 1000 {}]
    h.aofRewritesCompleted = 1 ∧
      ∃ out, aofLoad h.file (dbCreate 0) (fun _ => 2000) zeroed {} =
          .loaded out ∧
        Clean h.live out ∧ out.db.keyspace.get = h.db.keyspace.get ∧
        out.db.expires.get = h.db.expires.get :=
  ⟨by decide, aofLoad_rebuilds ⟨rfl, Disk.blank_wellFormed, rfl, rfl⟩ (firstHost_boot {})
    (by decide) _ (by decide) 0 zeroed_length .silent⟩

/-! Restarts at any time. -/

theorem exists_image {config : ServerConfig} {disk : Disk} {io : BootIo}
    {nowMs nowRealtimeMs realtimeMs : Int} {h : Host} (fresh : Fresh config disk io)
    (boot : initServer config disk nowMs nowRealtimeMs realtimeMs io = some h)
    {events : List Event} (written : ∀ e ∈ events, LogWritten e) :
    (∃ createdMs rs, (run h events).live = image createdMs rs) ∧
      (run h events).file = some (run h events).live := by
  obtain ⟨-, -, -, -, inv⟩ := fresh_boot fresh boot
  have inv' := inv.run written
  obtain ⟨createdMs, rs, all, live⟩ := inv'.live
  obtain ⟨ls, rfl⟩ := exists_logRecords all
  exact ⟨⟨createdMs, ls, live.trans (image_eq_logFile createdMs ls).symm⟩, inv'.rewrite.file⟩

/-- A log the server wrote loads clean exactly when every record that has not expired
finds what it needs in the unexpired records before it. -/
theorem aofLoad_clean_iff {config : ServerConfig} {disk : Disk} {io : BootIo}
    {nowMs nowRealtimeMs realtimeMs : Int} {h : Host} (fresh : Fresh config disk io)
    (boot : initServer config disk nowMs nowRealtimeMs realtimeMs io = some h)
    (events : List Event) (written : ∀ e ∈ events, LogWritten e) :
    (∃ createdMs rs, (run h events).live = image createdMs rs) ∧
      ∀ createdMs rs, (run h events).live = image createdMs rs →
        ∀ (t startMs : Int) (junk : Bytes) (loadIo : LoadIo), junk.length = aofRecordMax →
          loadIo.Ok → ∃ out, aofLoad (run h events).file (dbCreate startMs) (fun _ => t) junk
            loadIo = .loaded out ∧
            (Clean (run h events).live out ↔ Intact t (entries rs)) := by
  obtain ⟨exists_rs, file⟩ := exists_image fresh boot written
  refine ⟨exists_rs, fun createdMs rs live t startMs junk loadIo hjunk hio => ?_⟩
  obtain ⟨out, load, -, clean⟩ := aofLoad_entries createdMs rs t startMs hjunk hio
  rw [file, live]
  exact ⟨out, load, clean⟩

/-- A SETEX whose deadline passes, and changes to another key. -/
def expiredBeside : List Event :=
  [.request (ascii "SETEX k 1 v") {}, .request (ascii "SET x y") {}, .tick 2000 2000 {},
    .request (ascii "DEL x") {}, .request (ascii "SET x z") {}]

theorem aofLoad_clean_iff_expiredBeside :
    let h := run (firstHost lazyConfig) expiredBeside
    (∃ createdMs rs, h.live = image createdMs rs) ∧
      ∃ out, aofLoad h.file (dbCreate 0) (fun _ => 3000) zeroed {} =
        .loaded out ∧ Clean h.live out := by
  let records : List LogRecord := [recordOf .setex "k" "v" 1000 (by decide),
    recordOf .set "x" "y" 0 (by decide), recordOf .del "x" "" 0 (by decide),
    recordOf .set "x" "z" 0 (by decide)]
  obtain ⟨exists_rs, loads⟩ := aofLoad_clean_iff ⟨rfl, Disk.blank_wellFormed, rfl, rfl⟩
    (firstHost_boot lazyConfig) expiredBeside (by simp [expiredBeside, LogWritten])
  obtain ⟨out, load, clean⟩ :=
    loads 0 records (by decide +kernel) 3000 0 zeroed {} zeroed_length .silent
  refine ⟨exists_rs, out, load, clean.mpr ?_⟩
  -- The SETEX is skipped; the DEL finds what the SET before it has stored.
  exact (replay_holds 3000 (entries records)).1.mp rfl

/-- SETEX, the deadline passes, and the DEL of the key that is still there succeeds. -/
def expiredDel : List Event :=
  [.request (ascii "SETEX k 1 v") {}, .tick 2000 2000 {}, .request (ascii "DEL k") {},
    .request (ascii "SET x y") {}]

/-- On a restart the SETEX is skipped, its DEL fails, and the SET behind it is lost. -/
theorem aofLoad_expiredDel :
    let h := run (firstHost lazyConfig) expiredDel
    mutation (run (firstHost lazyConfig) (expiredDel.take 2)) (.request (ascii "DEL k") {}) =
        some ⟨.del, ascii "k", [], 0⟩ ∧
      ∃ out, aofLoad h.file (dbCreate 0) (fun _ => 3000) zeroed {} =
          .loaded out ∧
        out.reason = some .replayFailed ∧ out.db.keyspace.get (ascii "x") = none ∧
        ¬ Clean h.live out := by
  let records : List LogRecord := [recordOf .setex "k" "v" 1000 (by decide),
    recordOf .del "k" "" 0 (by decide), recordOf .set "x" "y" 0 (by decide)]
  have file : (run (firstHost lazyConfig) expiredDel).file = some (image 0 records) := by
    decide +kernel
  have load := aofLoad_image 0 records (Or.inl rfl) (dbCreate 0) (fun _ => 3000)
    zeroed_length .silent
  rw [List.append_nil] at load
  refine ⟨by decide, _, file ▸ load, by decide, by decide, fun clean => ?_⟩
  exact absurd clean.reason (by decide)

/-- At the end of the run `k` is there with a deadline before `t`, or a step that made
no mutation took it away and it has not been there since. -/
def Lapsed (t : Int) (h : Host) (events : List Event) (k : Bytes) : Prop :=
  (((run h events).db.keyspace.get k).isSome ∧ past t ((run h events).db.expires.get k)) ∨
    ∃ before e after, events = before ++ e :: after ∧
      ((run h before).db.keyspace.get k).isSome ∧ mutation (run h before) e = none ∧
      ∀ p, p <+: after → (run h (before ++ e :: p)).db.keyspace.get k = none

theorem get_loaded {t : Int} {rs : List LogRecord}
    {part : List (Entry Bytes Bytes Int)} (reached : Reached t (entries rs) part) {db : Db}
    (cells : db.cells = (replay t (entries rs) .empty).1) (k : Bytes) :
    (dbGet db k t).2 = none ↔ ¬ Bears t part k := by
  have timely : ∀ e ∈ entries rs, e.Timely := by
    intro e he
    obtain ⟨r, -, rfl⟩ := List.mem_map.mp he
    exact r.entry_timely
  have unexpired := replay_not_past (t := t) timely (c := .empty) (fun _ => rfl)
  rw [dbGet_value, cells, settle_eq_self unexpired, ← replay_val_isSome reached k,
    Option.not_isSome_iff_eq_none]

/-- After a restart GET finds none of the lapsed keys exactly when the part of the log
that was replayed bears none of them. -/
theorem get_lapsed_iff {config : ServerConfig} {disk : Disk} {io : BootIo}
    {nowMs nowRealtimeMs realtimeMs : Int} {h : Host} (fresh : Fresh config disk io)
    (boot : initServer config disk nowMs nowRealtimeMs realtimeMs io = some h)
    (events : List Event) (written : ∀ e ∈ events, LogWritten e) :
    (∃ createdMs rs, (run h events).live = image createdMs rs) ∧
      ∀ createdMs rs, (run h events).live = image createdMs rs →
        ∀ t startMs : Int, (∃ part, Reached t (entries rs) part) ∧
          ∀ part, Reached t (entries rs) part → ∀ (junk : Bytes) (loadIo : LoadIo),
            junk.length = aofRecordMax → loadIo.Ok →
              ∃ out, aofLoad (run h events).file (dbCreate startMs) (fun _ => t) junk loadIo =
                  .loaded out ∧
                ((∀ k, Lapsed t h events k → (dbGet out.db k t).2 = none) ↔
                  ∀ k, Lapsed t h events k → ¬ Bears t part k) := by
  obtain ⟨exists_rs, file⟩ := exists_image fresh boot written
  refine ⟨exists_rs, fun createdMs rs live t startMs => ⟨exists_reached t (entries rs),
    fun part reached junk loadIo hjunk hio => ?_⟩⟩
  obtain ⟨out, load, cells, -⟩ := aofLoad_entries createdMs rs t startMs hjunk hio
  rw [file, live]
  refine ⟨out, load, ?_⟩
  constructor
  · exact fun gone k lapsed => (get_loaded reached cells k).mp (gone k lapsed)
  · exact fun unborne k lapsed => (get_loaded reached cells k).mpr (unborne k lapsed)

theorem get_lapsed_iff_setex :
    let h := run (firstHost {}) [.request (ascii "SETEX k 5 v") {}, .tick 6000 6000 {}]
    ∃ out, aofLoad h.file (dbCreate 0) (fun _ => 6000) zeroed {} = .loaded out ∧
      (dbGet out.db (ascii "k") 6000).2 = none := by
  let events : List Event := [.request (ascii "SETEX k 5 v") {}, .tick 6000 6000 {}]
  let rs : List LogRecord := [recordOf .setex "k" "v" 5000 (by decide)]
  have reached : Reached 6000 (entries rs) (entries rs) :=
    ⟨(replay_holds 6000 (entries rs)).1.mp rfl, Or.inl rfl⟩
  have unborne (k : Bytes) : ¬ Bears 6000 (entries rs) k := by
    rw [← replay_val_isSome reached k]
    exact Bool.false_ne_true
  have lapsed : Lapsed 6000 (firstHost {}) events (ascii "k") := Or.inl (by decide)
  obtain ⟨-, loads⟩ := get_lapsed_iff ⟨rfl, Disk.blank_wellFormed, rfl, rfl⟩ (firstHost_boot {})
    events (by simp [events, LogWritten])
  obtain ⟨out, load, gone⟩ := (loads 0 rs (by decide +kernel) 6000 0).2 (entries rs) reached zeroed
    {} zeroed_length .silent
  exact ⟨out, load, gone.mpr (fun k _ => unborne k) (ascii "k") lapsed⟩

/-- SET, SETEX over it, and a GET that finds the deadline passed. -/
def overwritten : List Event :=
  [.request (ascii "SET k old") {}, .request (ascii "SETEX k 5 new") {}, .tick 6000 6000 {},
    .request (ascii "GET k") {}]

/-- On a restart the SETEX is skipped, and the SET before it brings back the old value. -/
theorem aofLoad_overwritten :
    Lapsed 6000 (firstHost lazyConfig) overwritten (ascii "k") ∧
      ∃ out, aofLoad (run (firstHost lazyConfig) overwritten).file (dbCreate 0) (fun _ => 6000)
          zeroed {} = .loaded out ∧
        (dbGet out.db (ascii "k") 6000).2 = some (ascii "old") := by
  let records : List LogRecord := [recordOf .set "k" "old" 0 (by decide),
    recordOf .setex "k" "new" 5000 (by decide)]
  have file : (run (firstHost lazyConfig) overwritten).file = some (image 0 records) := by
    decide +kernel
  have load := aofLoad_image 0 records (Or.inl rfl) (dbCreate 0) (fun _ => 6000)
    zeroed_length .silent
  rw [List.append_nil] at load
  refine ⟨Or.inr ⟨overwritten.take 3, .request (ascii "GET k") {}, [], rfl, by decide, by decide,
    fun p hp => ?_⟩, _, file ▸ load, by decide⟩
  obtain rfl := List.prefix_nil.mp hp
  decide

end ByteKV.Restart
