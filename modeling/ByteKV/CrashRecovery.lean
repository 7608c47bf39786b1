import ByteKV.Lifetimes

/-! Crashes and restarts. Whatever a death leaves on the disk stands for a journal, and so does
what the next start makes of it; so any number of lives is one history of the journal. -/
namespace ByteKV.Lifetimes
open Config Database FileIo AofRecord ServerState ServerRun RewriteInvariant StoreInvariant
open LogInvariant LogTracking Command ExpiringLog AofLoad Recovery PowerLoss
open Emission (Path emitted)
open Journal (State Label)

/-- On the disk is a log that stands for the journal, with a torn record behind it perhaps; or
there is no log yet, and nothing in the journal. -/
structure OnDisk (T : Int → Prop) (j : State Record) (disk : Disk) : Prop where
  wellFormed : disk.WellFormed
  stored : Stored T j
  log : (disk.aof = none ∧ j = .empty) ∨ ∃ ino createdMs rs bytes torn, disk.aof = some ino ∧
    disk.data ino = bytes ++ torn ∧ TornTail torn ∧
    Written T j createdMs rs bytes (disk.synced ino)

theorem Stored.cut {T : Int → Prop} {j : State Record} (stored : Stored T j) {n : Nat}
    (le : j.durable ≤ n) : Stored T (j.cut n le) := by
  intro k hk
  change ∃ c, ∀ t, T t → Follows t ((j.items.take n).take k) .empty c
  rw [List.take_take]
  exact stored _ (le_min hk le)

/-- A cut behind the safe items leaves some of the others, and a torn record. -/
theorem Written.cut {T : Int → Prop} {j : State Record} {createdMs : Int} {rs : List Record}
    {bytes : Bytes} {synced kept : Nat} (written : Written T j createdMs rs bytes synced)
    (header : aofFileHeaderSize ≤ kept) (safe : (logFile createdMs rs).length ≤ kept) :
    ∃ (m : Nat) (le : j.durable ≤ m) (bytes' torn : Bytes), TornTail torn ∧
      bytes.take kept = bytes' ++ torn ∧
      Written T (j.cut m le) createdMs rs bytes' (min synced (bytes.take kept).length) ∧
      ∀ k ≤ j.pending.length,
        j.durable + k ≤ m ↔ (logFile createdMs (rs ++ j.pending.take k)).length ≤ kept := by
  obtain ⟨ls, eq⟩ := exists_logRecords written.loggable
  obtain ⟨n, -, count, torn, tail, cutAt⟩ := image_take createdMs ls header
  have front (k : Nat) :
      image createdMs (ls.take k) = logFile createdMs ((rs ++ j.pending).take k) := by
    rw [image_eq_logFile, List.map_take, eq]
  have whole : image createdMs ls = bytes := by rw [image_eq_logFile, eq, written.bytes]
  have len : ls.length = rs.length + j.pending.length := by
    rw [← List.length_append, ← eq, List.length_map]
  have counted (k : Nat) (hk : k ≤ j.pending.length) :
      rs.length + k ≤ n ↔ (logFile createdMs (rs ++ j.pending.take k)).length ≤ kept := by
    rw [count _ (by omega), front, List.take_length_add_append]
  have enough : rs.length ≤ n := by
    have none := (counted 0 (Nat.zero_le _)).mpr
    rw [List.take_zero, List.append_nil] at none
    exact none safe
  have taken : (rs ++ j.pending).take n = rs ++ j.pending.take (n - rs.length) := by
    rw [List.take_append, List.take_of_length_le enough]
  rw [whole, front, taken] at cutAt
  have le : j.durable ≤ j.durable + (n - rs.length) := Nat.le_add_right _ _
  refine ⟨_, le, _, torn, tail, cutAt, ⟨?_, fun r hr => ?_, ?_, fun t ht => ?_⟩, fun k hk => ?_⟩
  · rw [j.cut_pending, Nat.add_sub_cancel_left]
  · rw [j.cut_pending, Nat.add_sub_cancel_left] at hr
    refine written.loggable r ?_
    rw [← taken] at hr
    exact List.mem_of_mem_take hr
  · have grown : (logFile createdMs rs).length ≤ (bytes.take kept).length := by
      rw [cutAt, logFile, logFile, logBytes_append]
      simp only [List.length_append]
      omega
    have before := written.synced
    omega
  · rw [j.cut_safe]
    exact written.same t ht
  · rw [← counted k hk]
    omega

section Death
variable {T : Int → Prop} {j : State Record} {h : Host}

theorem Death.leaves_log (d : Death) (ok : h.disk.Ok h.aofFd) (same : d.aof = h.disk.aof) :
    (d.leaves h).aof = some h.aofFd ∧ (d.leaves h).WellFormed ∧
      (d.leaves h).data h.aofFd = (d.whole h).take d.kept ∧
      (d.leaves h).synced h.aofFd =
        min (h.disk.synced h.aofFd) ((d.whole h).take d.kept).length := by
  let disk : Disk := { d.written h with aof := some h.aofFd, temp := none }
  have whole : disk.data h.aofFd = d.whole h := Disk.append_data _ _ _
  have synced : disk.synced h.aofFd = h.disk.synced h.aofFd := Disk.append_synced _ _ _
  let cut := disk.truncateTo h.aofFd ((d.whole h).take d.kept)
  have left : cut.data h.aofFd = (d.whole h).take d.kept ∧ cut.synced h.aofFd =
      min (h.disk.synced h.aofFd) ((d.whole h).take d.kept).length := by
    rw [← synced]
    simp [cut, Disk.truncateTo, Disk.data, Disk.synced, Inode.cut]
  have leaves : d.leaves h = d.temp.elim cut fun bytes =>
      cut.createTemp.1.append cut.createTemp.2 bytes := by
    simp only [Death.leaves, same.trans ok.aof, Option.elim, cut, ← whole]
    rfl
  rw [leaves]
  cases d.temp with
  | none =>
    exact ⟨rfl, ⟨fun ino named => Option.some.inj named ▸ ok.bound, fun ino named => by cases named⟩,
      left⟩
  | some bytes =>
    -- A file that the next process creates is none of those there are.
    have other : h.aofFd ≠ cut.next := ok.bound.ne
    have names : cut.createTemp = ({ cut with
        inode := Function.update cut.inode cut.next .empty
        next := cut.next + 1
        temp := some cut.next }, cut.next) := rfl
    simp only [Option.elim, names]
    refine ⟨rfl, ⟨fun ino named => ?_, fun ino named => ?_⟩, ?_, ?_⟩
    · exact Option.some.inj named ▸ ok.bound.trans (Nat.lt_succ_self _)
    · exact Option.some.inj named ▸ ⟨Nat.lt_succ_self _, fun log => other (Option.some.inj log)⟩
    · simp only [Disk.append, Disk.data, Function.update_of_ne other]
      exact left.1
    · simp only [Disk.append, Disk.synced, Function.update_of_ne other]
      exact left.2

theorem Death.cut (d : Death) (possible : d.Possible h) (survived : d.power = true → d.Survived h)
    (ok : h.disk.Ok h.aofFd) {i : State Record} {createdMs : Int} {rs : List Record}
    (stored : Stored T i)
    (written : Written T i createdMs rs (d.whole h) (h.disk.synced h.aofFd))
    (front : (logFile createdMs rs).length ≤ h.live.length) :
    ∃ (m : Nat) (le : i.durable ≤ m), OnDisk T (i.cut m le) (d.leaves h) ∧
      ∀ k ≤ i.pending.length,
        i.durable + k ≤ m ↔ (logFile createdMs (rs ++ i.pending.take k)).length ≤ d.kept := by
  have header : aofFileHeaderSize ≤ (logFile createdMs rs).length := by
    rw [logFile, List.length_append, aofFileHeader_length, aofFileHeaderSize_eq]
    exact Nat.le_add_right _ _
  have safe := written.synced
  obtain ⟨same, enough⟩ : d.aof = h.disk.aof ∧
      aofFileHeaderSize ≤ d.kept ∧ (logFile createdMs rs).length ≤ d.kept := by
    unfold Death.Possible at possible
    split at possible
    · rename_i power
      obtain ⟨aof, there⟩ := survived power
      have secured := possible h.aofFd (aof.trans ok.aof)
      exact ⟨aof, there, by omega⟩
    · exact ⟨possible.1, by omega, by omega⟩
  obtain ⟨m, le, bytes, torn, tail, cutAt, log, count⟩ := written.cut enough.1 enough.2
  obtain ⟨aof, wellFormed, data, synced⟩ := d.leaves_log ok same
  rw [← synced] at log
  exact ⟨m, le, ⟨wellFormed, stored.cut le,
    Or.inr ⟨h.aofFd, createdMs, rs, bytes, torn, aof, data.trans cutAt, tail, log⟩⟩, count⟩

theorem power_path {i : State Record} {m : Nat} (le : i.durable ≤ m) {power : Bool}
    (all : power = false → i.items.length ≤ m) :
    Path Journal.Step i (if power then [.powerLoss] else []) (i.cut m le) := by
  cases power with
  | true => exact .single (.powerLoss i m le)
  | false =>
    rw [i.cut_all m le (all rfl)]
    exact .nil i

theorem death_left (backed : Backed T j h) {d : Death} (possible : d.Possible h)
    (survived : d.power = true → d.Survived h) (later : ∃ t, T t)
    (safe : ∀ t, T t → ∀ payload ∈ d.request, SafeStep t h (.request payload {})) :
    ∃ j', Path Journal.Step j (d.labels h) j' ∧ OnDisk T j' (d.leaves h) := by
  obtain ⟨createdMs, rs, log⟩ := backed.written
  have ok := backed.sound.rewrite.disk
  have count : j.durable + j.pending.length = j.items.length := by
    rw [State.pending, List.length_drop]
    exact Nat.add_sub_cancel' j.bound
  have front : (logFile createdMs rs).length ≤ h.live.length := by
    rw [log.bytes, logFile, logFile, logBytes_append]
    simp only [List.length_append]
    omega
  have kept (power : d.power = false) : h.live.length ≤ d.kept := by
    unfold Death.Possible at possible
    rw [if_neg (by simp [power])] at possible
    exact possible.2
  cases record : d.record h with
  | none =>
    have whole : d.whole h = h.live := by simp [Death.whole, record]
    obtain ⟨m, le, disk, cut⟩ := d.cut possible survived ok backed.stored (whole.symm ▸ log) front
    have labels : d.labels h = if d.power then [.powerLoss] else [] := by
      simp [Death.labels, record]
    have all := cut j.pending.length (le_refl _)
    rw [List.take_length, ← log.bytes, count] at all
    exact ⟨_, labels ▸ power_path le fun off => all.mpr (kept off), disk⟩
  | some r =>
    obtain ⟨payload, asked, makes⟩ := Option.bind_eq_some_iff.mp record
    obtain ⟨-, asks, stored⟩ := mutation_iff.mp makes
    have whole : d.whole h = h.live ++ r.bytes := by simp [Death.whole, record]
    obtain ⟨u, hu⟩ := later
    obtain ⟨key, value, stamp⟩ := requestRecord_wellFormed asks
    have room := ((safe u hu payload asked).2 r makes).1
    have next : Stored T (j.append r) := backed.stored.append fun t ht =>
      (backed.store t ht).trans ((backed.tracks t ht).dispatch
        ((safe t ht payload asked).2 r makes).2 (requestRecord_stamped asks) stored)
    have log' := log.append ⟨key, value, room, stamp⟩
    obtain ⟨m, le, disk, cut⟩ := d.cut possible survived ok next (whole.symm ▸ log') front
    have pending := j.append_pending r
    rw [pending, List.length_append, List.length_singleton] at cut
    have all := cut (j.pending.length + 1) (le_refl _)
    rw [List.take_of_length_le (by simp), ← pending, ← log'.bytes, ← whole, ← Nat.add_assoc] at all
    change j.durable + j.pending.length + 1 ≤ m ↔ _ at all
    rw [count] at all
    by_cases complete : (d.whole h).length ≤ d.kept
    · have labels : d.labels h = .append r :: if d.power then [.powerLoss] else [] := by
        simp [Death.labels, record, complete]
      refine ⟨_, labels ▸ .cons (.append j r) (power_path le fun _ => ?_), disk⟩
      rw [State.append, List.length_append]
      exact all.mpr complete
    · have labels : d.labels h = if d.power then [.powerLoss] else [] := by
        simp [Death.labels, complete]
      have short : m ≤ j.items.length := Nat.le_of_lt_succ (not_le.mp fun le => complete (all.mp le))
      rw [j.append_cut r le short] at disk
      refine ⟨_, labels ▸ power_path (i := j) le fun off => ?_, disk⟩
      have old := (cut j.pending.length (Nat.le_succ _)).mpr
      rw [List.take_append_of_le_length (le_refl _), List.take_length, ← log.bytes] at old
      exact count ▸ old (kept off)

end Death

/-! The start of the next one. -/

theorem settle_settle_of_le {u t : Int} (le : u ≤ t) (c : Cells Bytes Bytes Int) :
    settle t (settle u c) = settle t c := by
  ext k : 2
  all_goals
    by_cases gone : past u (c.due k)
    · simp [settle, gone, past_mono le gone]
    · simp [settle, gone]

theorem openLog_existing {io : BootIo} {realtimeMs : Int} {g h : Host} {ino : Nat}
    (opened : openLog io realtimeMs g = some h) (aof : g.disk.aof = some ino)
    (some : g.disk.data ino ≠ []) : h.live = g.disk.data ino ∧
      h.disk.synced h.aofFd = g.disk.synced ino ∧ h.db = g.db := by
  have same : g.disk.openAof = (g.disk, ino) := by rw [Disk.openAof, aof]
  unfold openLog at opened
  simp only [same, Host.live, some, if_false] at opened
  split at opened
  · cases opened
  · split at opened
    · obtain rfl := Option.some.inj opened
      exact ⟨rfl, rfl, rfl⟩
    · split at opened
      · cases opened
      · rename_i disk written
        obtain rfl := Disk.writeAll_true written
        obtain rfl := Option.some.inj opened
        split <;> simp [Host.live]

theorem replayAof_log {io : BootIo} {u : Int} {g h : Host} {ino : Nat} {createdMs : Int}
    {rs : List Record} {torn : Bytes} {c : Cells Bytes Bytes Int} (junk : io.junk.length = aofRecordMax)
    (load : io.load.Ok) (clock : io.clock = fun _ => u) (aof : g.disk.aof = some ino)
    (bytes : g.disk.data ino = logFile createdMs rs ++ torn) (tail : TornTail torn)
    (loggable : ∀ r ∈ rs, Loggable r) (empty : g.db.cells = .empty)
    (all : replay u (rs.map Record.entry) .empty = (c, true)) (done : replayAof io g = some h) :
    h.db.cells = c ∧ h.disk = g.disk.truncateTo ino (logFile createdMs rs) := by
  obtain ⟨ls, rfl⟩ := exists_logRecords loggable
  rw [List.map_map] at all
  have cells := (replayRecords_cells u ls 0 g.db).trans ((congrArg _ empty).trans all)
  rw [Prod.mk.injEq] at cells
  have count := count_of_whole.mp cells.2
  rw [← image_eq_logFile] at bytes ⊢
  have loaded := aofLoad_image createdMs ls tail g.db io.clock junk load
  simp only [clock, count, List.take_length] at loaded
  unfold replayAof at done
  rw [aof, Option.map_some, bytes, clock, loaded] at done
  obtain rfl := Option.some.inj done
  exact ⟨cells.1, rfl⟩

section Start
variable {T U : Int → Prop} {j : State Record} {disk : Disk} {b : Boot} {h : Host}

theorem start_fresh (ok : b.Ok) (boot : b.start disk = some h) (wellFormed : disk.WellFormed)
    (absent : disk.aof = none) :
    h.db.cells = .empty ∧ Written T .empty b.realtimeMs [] h.live (h.disk.synced h.aofFd) := by
  obtain ⟨db, -, -, live, -⟩ := fresh_boot ⟨ok.enabled, wellFormed, absent, ok.statted⟩ boot
  refine ⟨db ▸ dbCreate_cells b.nowMs, live, by simp [State.empty, State.pending], ?_, fun _ _ => rfl⟩
  rw [logFile, logBytes_nil, List.append_nil, aofFileHeader_length, aofFileHeaderSize_eq]
  exact le_max_right _ _

theorem start_log {ino : Nat} {createdMs : Int} {rs : List Record} {bytes torn : Bytes}
    {c : Cells Bytes Bytes Int} (ok : b.Ok) (boot : b.start disk = some h)
    (aof : disk.aof = some ino) (data : disk.data ino = bytes ++ torn) (tail : TornTail torn)
    (written : Written T j createdMs rs bytes (disk.synced ino)) (now : T b.nowRealtimeMs)
    (all : replay b.nowRealtimeMs (j.items.map Record.entry) .empty = (c, true)) :
    h.db.cells = c ∧ Written T j createdMs rs h.live (h.disk.synced h.aofFd) := by
  simp only [Boot.start, initServer, ok.enabled, if_true] at boot
  obtain ⟨g, replayed, opened⟩ := Option.bind_eq_some_iff.mp boot
  obtain ⟨cells, truncated⟩ := replayAof_log (h := g) ok.junk ok.load ok.clock aof
    (written.bytes ▸ data) tail written.loggable (dbCreate_cells _) ((written.replays now).trans all)
    replayed
  rw [← written.bytes] at truncated
  have kept : g.disk.data ino = bytes ∧ g.disk.synced ino = min (disk.synced ino) bytes.length := by
    rw [truncated]
    simp [Disk.truncateTo, Disk.data, Disk.synced, Inode.cut, emptyHost]
  have some : bytes ≠ [] := by
    intro none
    have len := congrArg List.length (written.bytes.symm.trans none)
    rw [logFile, List.length_append, aofFileHeader_length, List.length_nil] at len
    omega
  have sameName : g.disk.aof = Option.some ino := by
    rw [truncated]
    exact aof
  obtain ⟨live, synced, db⟩ := openLog_existing opened sameName (kept.1.symm ▸ some)
  refine ⟨db ▸ cells, ?_⟩
  rw [live, synced, kept.1, kept.2]
  refine ⟨written.bytes, written.loggable, ?_, written.same⟩
  have front : (logFile createdMs rs).length ≤ bytes.length := by
    rw [written.bytes, logFile, logFile, logBytes_append]
    simp only [List.length_append]
    omega
  have before := written.synced
  omega

theorem start_backed (onDisk : OnDisk T j disk) (ok : b.Ok) (boot : b.start disk = some h)
    (now : T b.nowRealtimeMs) (later : ∀ t, U t → T t ∧ b.nowRealtimeMs ≤ t) :
    Backed U j h ∧
      replay b.nowRealtimeMs (j.items.map Record.entry) .empty = (h.db.cells, true) := by
  obtain ⟨c, store⟩ := onDisk.stored j.items.length j.bound
  rw [List.take_length] at store
  have all := follows_empty (store b.nowRealtimeMs now)
  obtain ⟨cells, createdMs, rs, written⟩ : h.db.cells = settle b.nowRealtimeMs c ∧
      ∃ createdMs rs, Written T j createdMs rs h.live (h.disk.synced h.aofFd) := by
    rcases onDisk.log with ⟨absent, rfl⟩ | ⟨ino, createdMs, rs, bytes, torn, aof, data, tail, written⟩
    · obtain ⟨cells, written⟩ := start_fresh (T := T) ok boot onDisk.wellFormed absent
      exact ⟨cells.trans (congrArg Prod.fst all), _, _, written⟩
    · obtain ⟨cells, written⟩ := start_log ok boot aof data tail written now all
      exact ⟨cells, _, _, written⟩
  have booted := (initServer_spec boot).1
  have clock : h.nowRealtimeMs = b.nowRealtimeMs := by
    obtain ⟨db, disk', ino, lastSize, rfl, -⟩ := initServer_cases boot
    rfl
  have childless : ∀ c, h.child ≠ some c := by simp [booted.child]
  have sound := initServer_sound onDisk.wellFormed ok.enabled boot
  refine ⟨⟨⟨fun t ht => ?_, fun n le => ?_, createdMs, rs, written.bytes, written.loggable,
    written.synced, fun t ht => written.same t (later t ht).1⟩, sound, fun t ht => ?_⟩, ?_⟩
  · refine (store t (later t ht).1).settled ?_
    rw [cells, settle_settle_of_le (later t ht).2]
  · obtain ⟨c, store⟩ := onDisk.stored n le
    exact ⟨c, fun t ht => store t (later t ht).1⟩
  · refine ⟨?_, clock.trans_le (later t ht).2, fun c hc => absurd hc (childless c),
      initServer_stores consistent_kept (fun _ _ => trivial) boot,
      fun _ c hc => absurd hc (childless c)⟩
    rw [booted.config, ok.enabled]
  · rw [all, cells]

end Start

/-! All lives together. -/

theorem life_onDisk {t : Int} {life : Life} {lives : List Life} {disk : Disk} {j : State Record}
    {h : Host} (onDisk : OnDisk (· ∈ restarts (life :: lives) t) j disk)
    (careful : Careful t disk (life :: lives)) (survive : EntriesSurvive disk (life :: lives))
    (boot : life.boot.start disk = some h) :
    ∃ j', Path Journal.Step j (life.labels h) j' ∧
      OnDisk (· ∈ restarts lives t) j' (life.leaves h) := by
  obtain ⟨ok, careful⟩ := careful
  obtain ⟨safe, possible, -⟩ := careful h boot
  have later : ∃ u, u ∈ restarts lives t := ⟨t, by simp [restarts]⟩
  obtain ⟨backed, -⟩ := start_backed (U := (· ∈ restarts lives t)) onDisk ok boot
    (by simp [restarts]) fun u hu => ⟨List.mem_cons_of_mem _ hu, (safe u hu).clock⟩
  obtain ⟨i, events, backed⟩ := run_backed backed later fun u hu => (safe u hu).events
  obtain ⟨j', death, onDisk⟩ :=
    death_left backed possible (survive h boot).1 later fun u hu => (safe u hu).death
  exact ⟨j', events.append death, onDisk⟩

theorem outcome_onDisk {t : Int} {lives : List Life} {disk disk' : Disk} {j : State Record}
    {ls : List (Label Record)} (onDisk : OnDisk (· ∈ restarts lives t) j disk)
    (careful : Careful t disk lives) (survive : EntriesSurvive disk lives)
    (lived : outcome disk lives = some (disk', ls)) :
    ∃ j', Path Journal.Step j ls j' ∧ OnDisk (· = t) j' disk' := by
  induction lives generalizing disk j ls with
  | nil =>
    obtain ⟨rfl, rfl⟩ := Prod.mk.inj (Option.some.inj lived)
    obtain ⟨wellFormed, stored, log⟩ := onDisk
    simp only [restarts, List.map_nil, List.nil_append, List.mem_singleton] at stored log
    exact ⟨j, .nil j, wellFormed, stored, log⟩
  | cons life lives ih =>
    obtain ⟨h, boot, rest⟩ := Option.bind_eq_some_iff.mp lived
    obtain ⟨⟨final, ls'⟩, others, eq⟩ := Option.map_eq_some_iff.mp rest
    obtain ⟨rfl, rfl⟩ := Prod.mk.inj eq
    obtain ⟨i, first, onDisk⟩ := life_onDisk onDisk careful survive boot
    obtain ⟨j', path, onDisk⟩ := ih onDisk (careful.2 h boot).2.2 (survive h boot).2 others
    exact ⟨j', first.append path, onDisk⟩

theorem blank_onDisk (T : Int → Prop) {disk : Disk} (wellFormed : disk.WellFormed)
    (absent : disk.aof = none) : OnDisk T .empty disk :=
  ⟨wellFormed, fun n _ => ⟨.empty, fun t _ => by
    rw [State.empty, List.take_nil]
    exact .refl _⟩, Or.inl ⟨absent, rfl⟩⟩

/-! A life that ends in the write of its second record, with the power. -/

def tornSet : Life where
  boot := ⟨{}, 0, 0, 0, { junk := zeroed, clock := fun _ => 0 }⟩
  events := [.request (ascii "SET k v") {}]
  death :=
    { request := some (ascii "SET x y")
      power := true
      aof := some 0
      kept := (image 0 [setRecord]).length + 5 }

def nextBoot : Boot := ⟨{}, 1000, 1000, 1000, { junk := zeroed, clock := fun _ => 1000 }⟩

theorem tornSet_lived : ∃ disk' ls h,
    outcome .blank [tornSet] = some (disk', ls) ∧ nextBoot.start disk' = some h := by
  have starts :
      ((outcome .blank [tornSet]).bind fun out => nextBoot.start out.1).isSome = true := by
    decide +kernel
  obtain ⟨h, starts⟩ := Option.isSome_iff_exists.mp starts
  obtain ⟨⟨disk', ls⟩, lived, boot⟩ := Option.bind_eq_some_iff.mp starts
  exact ⟨disk', ls, h, lived, boot⟩

instance (t : Int) (h : Host) (payload : Bytes) (io : RequestIo) :
    Decidable (SafeStep t h (.request payload io)) :=
  inferInstanceAs (Decidable (_ ∧ ∀ r ∈ mutation h (.request payload io),
    r.key.length + r.value.length ≤ aofPayloadMax ∧ r.entry.Safe t h.db.cells))

theorem tornSet_careful : Careful nextBoot.nowRealtimeMs .blank [tornSet] := by
  refine ⟨⟨rfl, rfl, zeroed_length, .silent, rfl⟩, fun h boot => ?_⟩
  have checks : ((tornSet.boot.start .blank).all fun h => decide
      (SafeStep 1000 h (.request (ascii "SET k v") {}) ∧
        SafeStep 1000 (run h tornSet.events) (.request (ascii "SET x y") {}) ∧
        (run h tornSet.events).disk.synced 0 ≤ tornSet.death.kept)) = true := by
    decide +kernel
  rw [boot, Option.all_some, decide_eq_true_eq] at checks
  obtain ⟨first, second, possible⟩ := checks
  refine ⟨fun u hu => ?_, fun ino named => Option.some.inj named ▸ possible, trivial⟩
  obtain rfl : u = nextBoot.nowRealtimeMs := by simpa [restarts] using hu
  refine ⟨by decide, ⟨first, trivial⟩, fun payload asked => ?_⟩
  exact Option.some.inj asked ▸ second

theorem tornSet_survives : EntriesSurvive .blank [tornSet] := by
  refine fun h boot => ⟨fun _ => ?_, trivial⟩
  have check : ((tornSet.boot.start .blank).all fun h => decide
      (tornSet.death.aof = (run h tornSet.events).disk.aof)) = true := by
    decide +kernel
  rw [boot, Option.all_some, decide_eq_true_eq] at check
  exact ⟨check, by decide +kernel⟩

theorem nextBoot_ok : nextBoot.Ok := ⟨rfl, rfl, zeroed_length, .silent, rfl⟩

def collected (kept : Life → Host → List Record) : Disk → List Life → List Record
  | _, [] => []
  | disk, life :: lives => (life.boot.start disk).elim [] fun h =>
      kept life h ++ collected kept (life.leaves h) lives

/-- Before the life ends, all of `rs` has been flushed. -/
def Secures (life : Life) (h : Host) (rs : List Record) : Prop :=
  ∀ pending ls, (rs ++ Journal.secured [] ls).Sublist
    (Journal.secured pending (emitted step labels h life.events ++ ls))

theorem collected_secured {kept : Life → Host → List Record} {t : Int} {lives : List Life}
    {disk disk' : Disk} {j : State Record} {ls : List (Label Record)}
    (onDisk : OnDisk (· ∈ restarts lives t) j disk) (careful : Careful t disk lives)
    (survive : EntriesSurvive disk lives) (lived : outcome disk lives = some (disk', ls))
    (each : ∀ life ∈ lives, ∀ disk h, disk.WellFormed → life.boot.Ok →
      life.boot.start disk = some h → life.Safe t h → Secures life h (kept life h))
    (pending : List Record) :
    (collected kept disk lives).Sublist (Journal.secured pending ls) := by
  induction lives generalizing disk j ls pending with
  | nil => exact List.nil_sublist _
  | cons life lives ih =>
    obtain ⟨h, boot, rest⟩ := Option.bind_eq_some_iff.mp lived
    obtain ⟨⟨final, ls'⟩, others, eq⟩ := Option.map_eq_some_iff.mp rest
    obtain ⟨rfl, rfl⟩ := Prod.mk.inj eq
    obtain ⟨safe, -, rest⟩ := careful.2 h boot
    obtain ⟨i, -, left⟩ := life_onDisk onDisk careful survive boot
    have later := ih left rest (survive h boot).2 others
      (fun l hl => each l (List.mem_cons_of_mem _ hl)) []
    have death : (collected kept (life.leaves h) lives).Sublist (Journal.secured []
        (life.death.labels (run h life.events) ++ ls')) := by
      rw [Death.labels]
      split
      · exact later.trans (Journal.secured_append [] _ _ ls')
      · exact later.trans (Journal.secured_append [] [] _ ls')
    rw [collected, boot, Option.elim, Life.labels, List.append_assoc]
    refine List.Sublist.trans (death.append_left _) ?_
    exact each life List.mem_cons_self disk h onDisk.wellFormed careful.1 boot
      (safe t (by simp [restarts])) pending _

/-- What is secured in each life is in the journal behind the store that a start finds, whatever
kills and power losses came before it. -/
theorem restart_keeps {kept : Life → Host → List Record} {lives : List Life} {disk disk' : Disk}
    {ls : List (Label Record)} (wellFormed : disk.WellFormed) (absent : disk.aof = none)
    (lived : outcome disk lives = some (disk', ls)) {b : Boot}
    (careful : Careful b.nowRealtimeMs disk lives) (survive : EntriesSurvive disk lives)
    (ok : b.Ok) {h : Host} (boot : b.start disk' = some h)
    (each : ∀ life ∈ lives, ∀ disk h, disk.WellFormed → life.boot.Ok →
      life.boot.start disk = some h → life.Safe b.nowRealtimeMs h →
        Secures life h (kept life h)) :
    ∃ items : List Record,
      replay b.nowRealtimeMs (items.map Record.entry) .empty = (h.db.cells, true) ∧
        (collected kept disk lives).Sublist items ∧ items.Sublist (Journal.appended ls) := by
  have empty := blank_onDisk (· ∈ restarts lives b.nowRealtimeMs) wellFormed absent
  obtain ⟨j, path, onDisk⟩ := outcome_onDisk empty careful survive lived
  have start := start_backed (U := fun _ => False) onDisk ok boot rfl fun _ => False.elim
  refine ⟨j.items, start.2, ?_, Journal.path_appended path⟩
  have secured := Journal.path_secured path (List.nil_sublist _)
  have made := collected_secured empty careful survive lived each []
  exact (made.trans secured).trans (List.take_sublist _ _)

/-! Records that are flushed before they are acknowledged. -/

def Life.acknowledged (life : Life) (h : Host) : List Record :=
  emitted step (fun h e => (mutation h e).toList) h life.events

def Flushes : Event → Prop
  | .request _ io => io.append.flushed = true
  | _ => True

theorem step_flushed {t : Int} {h : Host} {e : Event} {r : Record}
    (on : h.config.aofEnabled = true) (always : h.config.aofPolicy = .always)
    (safe : SafeStep t h e) (flushes : Flushes e) (makes : mutation h e = some r) :
    Flushed (step h e) := by
  cases e with
  | request payload io =>
    obtain ⟨written, fits⟩ := safe
    rw [StepCases.step_mutated makes]
    let stored : Host := { h with db := (replayDispatch h.db r.decoded).1 }
    refine ((Durability.aofAppend_durable_iff (h := stored) on always (fits r makes).1).mpr
      ⟨fun k fault => ?_, flushes⟩).flushed
    simp [faultAfter_eq_none written] at fault
  | tick | child | childKilled | childSignal | signal | shutdown => cases makes

theorem emitted_secured {t : Int} {h : Host} {events : List Event}
    (on : h.config.aofEnabled = true) (always : h.config.aofPolicy = .always)
    (safe : Transition.Along step (SafeStep t) h events) (flushes : ∀ e ∈ events, Flushes e)
    (pending : List Record) (ls : List (Label Record)) :
    (emitted step (fun h e => (mutation h e).toList) h events ++ Journal.secured [] ls).Sublist
      (Journal.secured pending (emitted step labels h events ++ ls)) := by
  induction events generalizing h pending with
  | nil => exact Journal.secured_mono (List.nil_sublist _) ls
  | cons e events ih =>
    have config : (step h e).config = h.config := config_run h [e]
    have next := ih (h := step h e) (config.symm ▸ on) (config.symm ▸ always) safe.2
      fun f hf => flushes f (List.mem_cons_of_mem _ hf)
    rw [emitted, emitted, labels, List.append_assoc]
    cases makes : mutation h e with
    | none =>
      by_cases flushed : Flushed (step h e)
      · rw [if_pos flushed]
        exact (next []).trans (List.sublist_append_right _ _)
      · rw [if_neg flushed]
        exact next pending
    | some r =>
      rw [if_pos (step_flushed on always safe.1 (flushes e List.mem_cons_self) makes)]
      change (r :: _).Sublist ((pending ++ [r]) ++ Journal.secured [] _)
      rw [List.append_assoc]
      exact ((next []).cons_cons r).trans (List.sublist_append_right _ _)

/-- A life that a power loss ends which takes back the creation of the log. -/
def forgottenSet : Life := { tornSet with death := { power := true, aof := none, kept := 0 } }

/-- An acknowledged mutation is gone, since the directory does not survive. -/
theorem restart_forgets : Careful nextBoot.nowRealtimeMs .blank [forgottenSet] ∧
    collected Life.acknowledged .blank [forgottenSet] = [setRecord.toRecord] ∧
      ∃ disk' ls h, outcome .blank [forgottenSet] = some (disk', ls) ∧
        nextBoot.start disk' = some h ∧ h.db.keyspace.get (ascii "k") = none := by
  refine ⟨⟨tornSet_careful.1, fun h boot => ?_⟩, by decide +kernel, ?_⟩
  · obtain ⟨safe, -⟩ := tornSet_careful.2 h boot
    refine ⟨fun u hu => ?_, nofun, trivial⟩
    obtain ⟨clock, events, -⟩ := safe u hu
    exact ⟨clock, events, nofun⟩
  · have starts : ((outcome .blank [forgottenSet]).bind fun out => nextBoot.start out.1).any
        (fun h => h.db.keyspace.get (ascii "k") = none) = true := by
      decide +kernel
    obtain ⟨h, starts, none⟩ := (Option.any_eq_true _ _).mp starts
    obtain ⟨⟨disk', ls⟩, lived, boot⟩ := Option.bind_eq_some_iff.mp starts
    exact ⟨disk', ls, h, lived, boot, of_decide_eq_true none⟩

end ByteKV.Lifetimes
