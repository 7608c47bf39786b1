import ByteKV.ActiveSweep
import ByteKV.ConfigFile
import ByteKV.RewriteInvariant
import Mathlib.Data.List.Perm.Subperm

/-! One call of `active_expire_cron`: how many sweeps it makes, and why it stops. The
readings of the clock and the buckets that are drawn may be any. -/
namespace ByteKV.ExpireCycle
open Config ConfigFile HashTable Database ActiveSweep ServerState ServerRun RewriteInvariant
open ExpiringLog (past)

/-! A sweep counts entries that are gone from the expires table. -/

theorem entries_keys_length {α : Type} (ht : Ht α) :
    (ht.entries.map HtEntry.key).length = ht.raw.used := by
  rw [List.length_map, ht.wf.used_eq]
  rfl

theorem mem_keys {α : Type} (ht : Ht α) (k : Bytes) :
    k ∈ ht.entries.map HtEntry.key ↔ (ht.get k).isSome := by
  rw [List.mem_map, Option.isSome_iff_exists]
  constructor
  · rintro ⟨e, he, rfl⟩
    exact ⟨e.val, ht.mem_entries_iff.mp he⟩
  · rintro ⟨v, held⟩
    exact ⟨⟨k, v⟩, ht.mem_entries_iff.mpr held, rfl⟩

theorem dbActiveSweep_used (db : Db) (sampleSize : Nat) (nowMs : Int) (draws : List Nat)
    (released : Bytes → Bytes) :
    (dbActiveSweep db sampleSize nowMs draws released).1.expires.raw.used +
      (dbActiveSweep db sampleSize nowMs draws released).2 ≤ db.expires.raw.used := by
  obtain ⟨keys, mem, swept⟩ := dbActiveSweep_swept db sampleSize nowMs draws released
  generalize dbActiveSweep db sampleSize nowMs draws released = result at swept ⊢
  have apart : (result.1.expires.entries.map HtEntry.key ++ keys).Nodup := by
    refine List.nodup_append.mpr ⟨result.1.expires.keys_nodup, swept.nodup, ?_⟩
    rintro k left _ gone rfl
    rw [mem_keys, swept.due, if_pos gone] at left
    cases left
  have inside : result.1.expires.entries.map HtEntry.key ++ keys ⊆
      db.expires.entries.map HtEntry.key := by
    intro k hk
    rw [mem_keys]
    rcases List.mem_append.mp hk with left | gone
    · rw [mem_keys, swept.due] at left
      split at left
      · cases left
      · exact left
    · obtain ⟨expireAt, due, -⟩ :=
        ((picked_iff db sampleSize nowMs draws k).mp ((mem k).mp gone)).1.due
      simp [due]
  have room := (apart.subperm inside).length_le
  rwa [List.length_append, entries_keys_length, entries_keys_length, ← swept.count] at room

/-! The loop, with a record of its sweeps. -/

structure Cycle where
  expired : List Nat
  current : Int
  returned : Bool
  host : Host

/-- The sweep removed less than the configured percentage of the sample. -/
def Below (config : ServerConfig) (expired : Nat) : Prop :=
  (expired : Int) * 100 < config.activeExpirePercent * config.activeExpireKeysPerRound

/-- `activeExpireLoop`, and what it does on the way. -/
def expireCycle (released : Bytes → Bytes) (start budgetMs : Int) :
    List SweepRound → (current : Int) → Host → Cycle
  | [], current, h => ⟨[], current, decide (budgetMs ≤ current - start), h⟩
  | round :: rounds, current, h =>
      if current - start < budgetMs then
        let sample := h.config.activeExpireKeysPerRound.toNat
        let (db, expired) := dbActiveSweep h.db sample h.nowRealtimeMs round.draws released
        let h := { h with db := db }
        if expired * 100 / sample < h.config.activeExpirePercent.toNat then
          ⟨[expired], current, true, h⟩
        else
          let cycle := expireCycle released start budgetMs rounds round.nowMs h
          { cycle with expired := expired :: cycle.expired }
      else ⟨[], current, true, h⟩

section Loop
variable {released : Bytes → Bytes} {start budgetMs : Int}

theorem expireCycle_host (rounds : List SweepRound) (current : Int) (h : Host) :
    (expireCycle released start budgetMs rounds current h).host =
      activeExpireLoop released start budgetMs rounds current h := by
  induction rounds generalizing current h with
  | nil => rfl
  | cons round rounds ih =>
    rw [expireCycle, activeExpireLoop]
    split
    · simp only
      split
      · rfl
      · exact ih _ _
    · rfl

theorem expireCycle_append (rounds more : List SweepRound) (current : Int) (h : Host)
    (done : (expireCycle released start budgetMs rounds current h).returned = true) :
    expireCycle released start budgetMs (rounds ++ more) current h =
      expireCycle released start budgetMs rounds current h := by
  induction rounds generalizing current h with
  | nil =>
    have out : ¬ current - start < budgetMs := by simpa [expireCycle] using done
    cases more with
    | nil => rfl
    | cons round more => simp [expireCycle, out, not_lt.mp out]
  | cons round rounds ih =>
    rw [List.cons_append, expireCycle, expireCycle]
    rw [expireCycle] at done
    split
    · rename_i inside
      rw [if_pos inside] at done
      simp only at done ⊢
      split
      · rfl
      · rename_i above
        rw [if_neg above] at done
        rw [ih _ _ done]
    · rfl

end Loop

/-- The test of the code, which divides, is the one that compares the products. -/
theorem below_iff {config : ServerConfig} (sample : 0 < config.activeExpireKeysPerRound)
    (percent : 0 ≤ config.activeExpirePercent) (expired : Nat) :
    expired * 100 / config.activeExpireKeysPerRound.toNat < config.activeExpirePercent.toNat ↔
      Below config expired := by
  rw [Nat.div_lt_iff_lt_mul (by omega), Below, ← Int.ofNat_lt]
  push_cast
  rw [Int.toNat_of_nonneg percent, Int.toNat_of_nonneg sample.le]

/-! Why it stops. -/

section Stops
variable {released : Bytes → Bytes} {start budgetMs : Int} {config : ServerConfig}
  (sample : 0 < config.activeExpireKeysPerRound) (percent : 0 < config.activeExpirePercent)
include sample percent

/-- Every sweep but the last is at or above the percentage, and behind the last one the
percentage or the clock ends the loop. -/
theorem expireCycle_stops (rounds : List SweepRound) (current : Int) {h : Host}
    (same : h.config = config) :
    (∀ expired ∈ (expireCycle released start budgetMs rounds current h).expired.dropLast,
        ¬ Below config expired) ∧
      ((expireCycle released start budgetMs rounds current h).returned = true →
        (∃ expired, (expireCycle released start budgetMs rounds current h).expired.getLast? =
          some expired ∧ Below config expired) ∨
        budgetMs ≤ (expireCycle released start budgetMs rounds current h).current - start) := by
  induction rounds generalizing current h with
  | nil =>
    exact ⟨fun _ he => by simp [expireCycle] at he,
      fun out => Or.inr (by simpa [expireCycle] using out)⟩
  | cons round rounds ih =>
    subst same
    rw [expireCycle]
    split
    · simp only
      have test := below_iff sample percent.le
      generalize dbActiveSweep h.db h.config.activeExpireKeysPerRound.toNat h.nowRealtimeMs
        round.draws released = swept
      split
      · rename_i low
        exact ⟨fun _ he => by simp at he, fun _ => Or.inl ⟨_, rfl, (test _).mp low⟩⟩
      · rename_i high
        obtain ⟨above, ended⟩ := ih round.nowMs (h := { h with db := swept.1 }) rfl
        generalize expireCycle released start budgetMs rounds round.nowMs { h with db := swept.1 } =
          cycle at above ended
        refine ⟨fun expired he => ?_, fun done => (ended done).imp_left ?_⟩
        · rcases hc : cycle.expired with _ | ⟨next, rest⟩
          · simp [hc] at he
          · rw [hc, List.dropLast_cons_cons, List.mem_cons] at he
            rcases he with rfl | he
            · exact mt (test _).mpr high
            · exact above expired (hc ▸ he)
        · rintro ⟨last, hl, low⟩
          refine ⟨last, ?_, low⟩
          rw [List.getLast?_cons, hl, Option.getD_some]
    · rename_i out
      exact ⟨fun _ he => by simp at he, fun _ => Or.inr (by simpa using out)⟩

theorem expireCycle_returns (rounds : List SweepRound) (current : Int) {h : Host}
    (same : h.config = config) (enough : h.db.expires.raw.used < rounds.length) :
    (expireCycle released start budgetMs rounds current h).returned = true := by
  induction rounds generalizing current h with
  | nil => simp at enough
  | cons round rounds ih =>
    subst same
    rw [expireCycle]
    split
    · simp only
      have test := below_iff sample percent.le
      have used := dbActiveSweep_used h.db h.config.activeExpireKeysPerRound.toNat h.nowRealtimeMs
        round.draws released
      generalize dbActiveSweep h.db h.config.activeExpireKeysPerRound.toNat h.nowRealtimeMs
        round.draws released = swept at used
      split
      · rfl
      · rename_i high
        have some_gone : 0 < swept.2 := by
          rw [Nat.pos_iff_ne_zero]
          rintro none
          rw [test, none] at high
          exact high (by simpa [Below] using Int.mul_pos percent sample)
        refine ih round.nowMs (h := { h with db := swept.1 }) rfl ?_
        rw [List.length_cons] at enough
        change swept.1.expires.raw.used < rounds.length
        omega
    · rfl

end Stops

theorem expireCycle_sweeps {released : Bytes → Bytes} {start budgetMs current : Int}
    (round : SweepRound) (rounds : List SweepRound) (h : Host)
    (inside : current - start < budgetMs) :
    (expireCycle released start budgetMs (round :: rounds) current h).expired ≠ [] := by
  rw [expireCycle, if_pos inside]
  simp only
  split <;> simp

/-! The call. -/

def budget (config : ServerConfig) : Int := (Int.tdiv 1000 config.hz).tdiv 4

theorem budget_pos_iff {config : ServerConfig} (hz : 1 ≤ config.hz) :
    0 < budget config ↔ config.hz ≤ 250 := by
  have split : (0 : Int) ≤ 1000 / config.hz := Int.ediv_nonneg (by decide) (by omega)
  rw [budget, Int.tdiv_eq_ediv_of_nonneg (show (0 : Int) ≤ 1000 by decide),
    Int.tdiv_eq_ediv_of_nonneg split, Int.lt_iff_add_one_le, zero_add,
    Int.le_ediv_iff_mul_le (by decide), Int.le_ediv_iff_mul_le (by omega)]
  omega

def firstRounds (rounds : Nat → SweepRound) (n : Nat) : List SweepRound := (List.range n).map rounds

def cronCycle (released : Bytes → Bytes) (rounds : List SweepRound) (h : Host) : Cycle :=
  expireCycle released h.nowMs (budget h.config) rounds h.nowMs h

def Went (released : Bytes → Bytes) (rounds : Nat → SweepRound) (h : Host) (cycle : Cycle) : Prop :=
  cycle.returned = true ∧ ∃ n, ∀ m ≥ n, cronCycle released (firstRounds rounds m) h = cycle ∧
    activeExpireCron { rounds := firstRounds rounds m, released := released } h = cycle.host

/-- The call makes a sweep, goes on only behind a sweep at or above the percentage, and
stops behind one below it or when the budget is spent. -/
structure RunsAndStops (released : Bytes → Bytes) (rounds : Nat → SweepRound) (h : Host)
    (cycle : Cycle) : Prop where
  went : Went released rounds h cycle
  sweeps : cycle.expired ≠ []
  stops : (∃ expired, cycle.expired.getLast? = some expired ∧ Below h.config expired) ∨
    budget h.config ≤ cycle.current - h.nowMs
  goes : ∀ expired ∈ cycle.expired.dropLast, ¬ Below h.config expired

theorem cronCycle_host {h : Host} (enabled : h.config.activeExpireEnabled = true)
    (released : Bytes → Bytes) (rounds : List SweepRound) :
    activeExpireCron { rounds := rounds, released := released } h =
      (cronCycle released rounds h).host := by
  rw [activeExpireCron, if_neg (by simp [enabled]), cronCycle, expireCycle_host]
  rfl

theorem firstRounds_le {rounds : Nat → SweepRound} {n m : Nat} (le : n ≤ m) :
    ∃ more, firstRounds rounds m = firstRounds rounds n ++ more := by
  obtain ⟨k, rfl⟩ := Nat.exists_eq_add_of_le le
  exact ⟨_, by rw [firstRounds, List.range_add, List.map_append]; rfl⟩

theorem went_of_returned {h : Host} (enabled : h.config.activeExpireEnabled = true)
    {released : Bytes → Bytes} {rounds : Nat → SweepRound} (n : Nat)
    (done : (cronCycle released (firstRounds rounds n) h).returned = true) :
    Went released rounds h (cronCycle released (firstRounds rounds n) h) := by
  refine ⟨done, n, fun m le => ?_⟩
  obtain ⟨more, split⟩ := @firstRounds_le rounds n m le
  have same : cronCycle released (firstRounds rounds m) h =
      cronCycle released (firstRounds rounds n) h := by
    rw [split]
    exact expireCycle_append _ more _ _ done
  exact ⟨same, by rw [cronCycle_host enabled, same]⟩

theorem cronCycle_idle {h : Host} (none : budget h.config ≤ 0) (released : Bytes → Bytes)
    (rounds : List SweepRound) : (cronCycle released rounds h).expired = [] := by
  have out : ¬ h.nowMs - h.nowMs < budget h.config := by omega
  cases rounds with
  | nil => rfl
  | cons round rounds => rw [cronCycle, expireCycle, if_neg out]

def lapsedHost (config : ServerConfig) : Host :=
  { run (firstHost config) [.request (ascii "SET k v") {}, .request (ascii "EXPIRE k 1") {}] with
    nowMs := 5000
    nowRealtimeMs := 5000 }

/-- Active expiry runs, and stops for the right reason, up to 250 ticks a second; above
that no call makes a sweep. -/
theorem runsAndStops_iff {h : Host} (accepted : Accepted h.config)
    (enabled : h.config.activeExpireEnabled = true) (released : Bytes → Bytes)
    (rounds : Nat → SweepRound) :
    (∃ cycle, RunsAndStops released rounds h cycle) ↔ h.config.hz ≤ 250 := by
  obtain ⟨percent, -⟩ := accepted.activeExpirePercent
  obtain ⟨sample, -⟩ := accepted.activeExpireKeysPerRound
  rw [← budget_pos_iff accepted.hz.1]
  constructor
  · rintro ⟨cycle, right⟩
    by_contra spent
    obtain ⟨-, n, went⟩ := right.went
    exact right.sweeps ((went n le_rfl).1 ▸ cronCycle_idle (not_lt.mp spent) released _)
  · intro positive
    let n := h.db.expires.raw.used + 1
    have length : (firstRounds rounds n).length = n := by simp [firstRounds]
    have done : (cronCycle released (firstRounds rounds n) h).returned = true :=
      expireCycle_returns (by omega) (by omega) _ _ rfl (by rw [length]; exact Nat.lt_succ_self _)
    obtain ⟨goes, stops⟩ := @expireCycle_stops released h.nowMs (budget h.config) h.config
      (by omega) (by omega) (firstRounds rounds n) h.nowMs h rfl
    refine ⟨_, went_of_returned enabled n done, ?_, stops done, goes⟩
    obtain ⟨round, more, split⟩ := List.exists_cons_of_length_eq_add_one length
    rw [split]
    exact expireCycle_sweeps round more h (by omega)

theorem runsAndStops_default :
    Accepted {} ∧ ∃ cycle, RunsAndStops id (fun _ => ⟨[0, 1, 2, 3], 5000⟩) (lapsedHost {}) cycle := by
  have accepted : Accepted {} := ⟨none, rfl⟩
  have same : (lapsedHost {}).config = {} := config_run _ _
  refine ⟨accepted, (runsAndStops_iff (by rw [same]; exact accepted) (by rw [same]) _ _).mpr ?_⟩
  rw [same]
  decide

theorem fast_never_sweeps :
    serverConfig (some (ascii "hz 300\n")) = some { hz := 300 } ∧
      past 5000 ((lapsedHost { hz := 300 }).db.expires.get (ascii "k")) = true ∧
      ¬ ∃ cycle, RunsAndStops id (fun _ => ⟨[0, 1, 2, 3], 5000⟩) (lapsedHost { hz := 300 }) cycle := by
  refine ⟨by decide +kernel, by decide +kernel, ?_⟩
  rintro ⟨cycle, right⟩
  obtain ⟨-, n, went⟩ := right.went
  have none : budget (lapsedHost { hz := 300 }).config ≤ 0 := by decide +kernel
  exact right.sweeps ((went n le_rfl).1 ▸ cronCycle_idle none id _)

end ByteKV.ExpireCycle
