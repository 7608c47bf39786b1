import ByteKV.RewriteStates
import Mathlib.Algebra.Order.Ring.Int

/-! How long the server waits after a rewrite has failed. The delays of a series of
failures are collected beside the run; the cron asks for the time of the next attempt. -/
namespace ByteKV.RewriteBackoff
open Config ConfigFile Database FileIo AofRecord ServerState AofAppend AofRewrite ServerRun
open StepCases RewriteInvariant RewriteStates Command

/-! The doubling loop. -/

/-- The values that the loop of `aof_rewrite_record_failure` computes on its way. -/
def backoffProducts (max : Int) : (rounds : Nat) → (delay : Int) → List Int
  | 0, _ => []
  | rounds + 1, delay =>
      delay * 2 :: if delay * 2 ≥ max then [] else backoffProducts max rounds (delay * 2)

section Doubling
variable {max : Int}

theorem backoffDelay_eq (rounds : Nat) {delay : Int} (low : 0 ≤ delay)
    (looked : delay ≤ max ∨ 1 ≤ rounds) :
    backoffDelay max rounds delay = min (delay * 2 ^ rounds) max := by
  induction rounds generalizing delay with
  | zero =>
    rw [pow_zero, mul_one, min_eq_left (by omega)]
    rfl
  | succ rounds ih =>
    rw [backoffDelay, pow_succ', ← mul_assoc]
    split
    · rename_i reached
      have positive : (0 : Int) < 2 ^ rounds := Int.pow_pos (by decide)
      have grows : delay * 2 * 1 ≤ delay * 2 * 2 ^ rounds :=
        Int.mul_le_mul_of_nonneg_left (by omega) (by omega)
      rw [min_eq_right (by omega)]
    · exact ih (by omega) (Or.inl (by omega))

theorem backoffProducts_le (rounds : Nat) {delay : Int} (low : 0 ≤ delay) :
    ∀ product ∈ backoffProducts max rounds delay,
      0 ≤ product ∧ (product ≤ delay * 2 ∨ product ≤ max * 2) := by
  induction rounds generalizing delay with
  | zero => simp [backoffProducts]
  | succ rounds ih =>
    intro product hp
    rw [backoffProducts, List.mem_cons] at hp
    rcases hp with rfl | hp
    · exact ⟨by omega, Or.inl le_rfl⟩
    · split at hp
      · cases hp
      · obtain ⟨nonneg, bound⟩ := ih (by omega) product hp
        exact ⟨nonneg, Or.inr (by omega)⟩

end Doubling

/-! What a step does to the counters and the schedule. -/

structure SameSchedule (h h' : Host) : Prop where
  config : h'.config = h.config
  nowMs : h'.nowMs = h.nowMs
  completed : h'.aofRewritesCompleted = h.aofRewritesCompleted
  failed : h'.aofRewritesFailed = h.aofRewritesFailed
  streak : h'.aofRewriteFailedStreak = h.aofRewriteFailedStreak
  next : h'.aofRewriteNextAttemptMs = h.aofRewriteNextAttemptMs

theorem SameSchedule.refl (h : Host) : SameSchedule h h := ⟨rfl, rfl, rfl, rfl, rfl, rfl⟩

theorem SameSchedule.trans {h h' h'' : Host} (a : SameSchedule h h') (b : SameSchedule h' h'') :
    SameSchedule h h'' :=
  ⟨b.config.trans a.config, b.nowMs.trans a.nowMs, b.completed.trans a.completed,
    b.failed.trans a.failed, b.streak.trans a.streak, b.next.trans a.next⟩

inductive Scheduled (h h' : Host) : Prop
  | same (kept : SameSchedule h h')
  | failed (config : h'.config = h.config) (nowMs : h'.nowMs = h.nowMs)
      (completed : h'.aofRewritesCompleted = h.aofRewritesCompleted)
      (failed : h'.aofRewritesFailed = h.aofRewritesFailed + 1)
      (streak : h'.aofRewriteFailedStreak = h.aofRewriteFailedStreak + 1)
      (next : h'.aofRewriteNextAttemptMs = h.nowMs +
        backoffDelay h.config.aofRewriteBackoffMaxMs h.aofRewriteFailedStreak
          h.config.aofRewriteBackoffBaseMs)
  | completed (config : h'.config = h.config) (nowMs : h'.nowMs = h.nowMs)
      (completed : h'.aofRewritesCompleted = h.aofRewritesCompleted + 1)
      (streak : h'.aofRewriteFailedStreak = 0) (next : h'.aofRewriteNextAttemptMs = 0)

theorem Scheduled.after {h g h' : Host} (s : Scheduled g h') (kept : SameSchedule h g) :
    Scheduled h h' := by
  cases s with
  | same same => exact .same (kept.trans same)
  | failed config nowMs completed failed streak next =>
    rw [kept.config, kept.nowMs, kept.streak] at next
    exact .failed (config.trans kept.config) (nowMs.trans kept.nowMs) (completed.trans kept.completed)
      (by rw [failed, kept.failed]) (by rw [streak, kept.streak]) next
  | completed config nowMs completed streak next =>
    exact .completed (config.trans kept.config) (nowMs.trans kept.nowMs)
      (by rw [completed, kept.completed]) streak next

theorem recordFailure_scheduled (h : Host) : Scheduled h (aofRewriteRecordFailure h) :=
  .failed rfl rfl rfl rfl rfl rfl

theorem aofRewriteStart_scheduled (io : StartIo) (h : Host) :
    Scheduled h (aofRewriteStart io h).1 := by
  rcases aofRewriteStart_cases io h with eq | eq <;> rw [eq]
  · exact recordFailure_scheduled h
  · exact .same ⟨rfl, rfl, rfl, rfl, rfl, rfl⟩

theorem aofEmitDiff_schedule (h : Host) (reallocated : Bool) (buf : Bytes) :
    SameSchedule h (aofEmitDiff h reallocated buf) := by
  have copied (g : Host) : SameSchedule g (copyDiff g buf) := by
    unfold copyDiff
    split
    · exact .refl g
    · exact ⟨rfl, rfl, rfl, rfl, rfl, rfl⟩
  have aborted : SameSchedule h (aofAbortRewrite h) := ⟨rfl, rfl, rfl, rfl, rfl, rfl⟩
  simp only [aofEmitDiff]
  split
  · split
    · exact aborted
    · split
      · have grown (newCap : Nat) : SameSchedule h (growDiff h newCap) := ⟨rfl, rfl, rfl, rfl, rfl, rfl⟩
        exact (grown _).trans (copied _)
      · exact aborted
  · exact copied h

theorem aofMaybeFsyncAlways_schedule (h : Host) (flushed : Bool) :
    SameSchedule h (aofMaybeFsyncAlways h flushed).1 := by
  rcases aofMaybeFsyncAlways_cases h flushed with same | same <;> rw [same]
  · exact .refl h
  · exact ⟨rfl, rfl, rfl, rfl, rfl, rfl⟩

theorem aofAppend_schedule (io : AppendIo) (h : Host) (r : Record) :
    SameSchedule h (aofAppend io h r).1 := by
  have attempt := aofAppend_attempt io h r
  generalize (aofAppend io h r).1 = h' at attempt ⊢
  cases attempt with
  | unlogged off => exact .refl h
  | torn buf k on fits fault short => exact ⟨rfl, rfl, rfl, rfl, rfl, rfl⟩
  | whole buf on fits full =>
    refine SameSchedule.trans ?_ (aofMaybeFsyncAlways_schedule _ _)
    let emitted : Host :=
      { h with disk := h.disk.append h.aofFd buf, aofTotalWrites := h.aofTotalWrites + 1 }
    let logged : Host := { emitted with appended := h.appended ++ [r] }
    have start : SameSchedule h logged := ⟨rfl, rfl, rfl, rfl, rfl, rfl⟩
    unfold writtenWhole aofAppendWritten
    simp only
    split
    · have diffed := start.trans (aofEmitDiff_schedule logged io.reallocated buf)
      exact ⟨diffed.config, diffed.nowMs, diffed.completed, diffed.failed, diffed.streak, diffed.next⟩
    · exact ⟨rfl, rfl, rfl, rfl, rfl, rfl⟩

theorem commandExecute_scheduled (io : RequestIo) (h : Host) (payload : Bytes) (outCap : Nat) :
    Scheduled h (commandExecute io h payload outCap).1 := by
  have exec := commandExecute_cases io h payload outCap
  generalize commandExecute io h payload outCap = result at exec
  cases exec with
  | mutation r asks =>
    have kept (db : Db) : SameSchedule h { h with db := db } := ⟨rfl, rfl, rfl, rfl, rfl, rfl⟩
    rcases replayDispatch h.db r.decoded with ⟨db, _ | _⟩
    · exact .same (kept db)
    · exact .same ((kept db).trans (aofAppend_schedule io.append _ r))
  | cleaned => exact .same ⟨rfl, rfl, rfl, rfl, rfl, rfl⟩
  | started => exact aofRewriteStart_scheduled io.start h
  | unchanged => exact .same (.refl h)

theorem discard_scheduled (unlinked : Bool) (h : Host) : Scheduled h (discard unlinked h) := by
  cases unlinked <;> exact .failed rfl rfl rfl rfl rfl rfl

theorem aofRewriteCron_scheduled (io : CronIo) (h : Host) : Scheduled h (aofRewriteCron io h) := by
  rcases aofRewriteCron_ran io h with same | ⟨-, ran⟩
  · exact same.symm ▸ .same (.refl h)
  · have checked : SameSchedule h { h with lastCheckMs := h.nowMs } := ⟨rfl, rfl, rfl, rfl, rfl, rfl⟩
    refine Scheduled.after ?_ checked
    generalize aofRewriteCron io h = h' at ran ⊢
    cases ran with
    | unchanged => exact .same (.refl _)
    | started idle => exact aofRewriteStart_scheduled io.start _
    | lost busy => exact .failed rfl rfl rfl rfl rfl rfl
    | discarded busy g prepared =>
      refine (discard_scheduled io.finalize.unlinked g).after ?_
      cases prepared <;> exact ⟨rfl, rfl, rfl, rfl, rfl, rfl⟩
    | installed active c child phase ino temp => exact .completed rfl rfl rfl rfl rfl

theorem aofCron_schedule (flushed : Bool) (h : Host) : SameSchedule h (aofCron flushed h) := by
  rcases aofCron_cases flushed h with same | same | same <;> rw [same]
  · exact .refl h
  · exact ⟨rfl, rfl, rfl, rfl, rfl, rfl⟩
  · exact ⟨rfl, rfl, rfl, rfl, rfl, rfl⟩

theorem beforeCron_schedule (nowMs nowRealtimeMs : Int) (io : TickIo) (h : Host) :
    SameSchedule { h with nowMs := nowMs } (beforeCron nowMs nowRealtimeMs io h) := by
  have swept : SameSchedule { h with nowMs := nowMs } (activeExpireCron io
      { h with nowMs := nowMs, nowRealtimeMs := nowRealtimeMs, cronloops := h.cronloops + 1 }) :=
    activeExpireCron_induct (fun _ _ _ same => ⟨same.config, same.nowMs, same.completed, same.failed,
      same.streak, same.next⟩) _ rfl ⟨rfl, rfl, rfl, rfl, rfl, rfl⟩
  exact swept.trans (aofCron_schedule io.flushed _)

def ClockOk : Event → Prop
  | .tick nowMs _ _ => 0 ≤ nowMs
  | _ => True

theorem step_scheduled {h : Host} {e : Event} (clock : 0 ≤ h.nowMs) (ok : ClockOk e) :
    ∃ nowMs, 0 ≤ nowMs ∧ Scheduled { h with nowMs := nowMs } (step h e) := by
  have same : Scheduled h h := .same (.refl h)
  cases e with
  | tick nowMs nowRealtimeMs io =>
    simp only [step]
    split
    · exact ⟨h.nowMs, clock, same⟩
    · split
      · exact ⟨h.nowMs, clock, .same ⟨rfl, rfl, rfl, rfl, rfl, rfl⟩⟩
      · exact ⟨nowMs, ok, (aofRewriteCron_scheduled io.cron _).after
          (beforeCron_schedule nowMs nowRealtimeMs io h)⟩
  | request payload io =>
    refine ⟨h.nowMs, clock, ?_⟩
    simp only [step]
    split
    · exact same
    · exact commandExecute_scheduled io h payload msgMax
  | child realtimeMs io =>
    refine ⟨h.nowMs, clock, ?_⟩
    simp only [step]
    split
    · exact same
    · exact .same ⟨rfl, rfl, rfl, rfl, rfl, rfl⟩
  | childKilled =>
    refine ⟨h.nowMs, clock, ?_⟩
    simp only [step]
    split
    · exact same
    · exact .same ⟨rfl, rfl, rfl, rfl, rfl, rfl⟩
  | childSignal =>
    refine ⟨h.nowMs, clock, ?_⟩
    simp only [step, signalChild]
    split
    · exact same
    · split
      · exact .same ⟨rfl, rfl, rfl, rfl, rfl, rfl⟩
      · exact same
  | signal => exact ⟨h.nowMs, clock, .same ⟨rfl, rfl, rfl, rfl, rfl, rfl⟩⟩
  | shutdown =>
    refine ⟨h.nowMs, clock, ?_⟩
    simp only [step]
    split
    · exact same
    · exact .same ⟨rfl, rfl, rfl, rfl, rfl, rfl⟩

/-! A series of failures. -/

/-- The failures since a rewrite was last completed: the delay after each of them, and the
time of the last one. -/
structure Failures where
  delays : List Int
  lastMs : Int

def Failures.note (series : Failures) (h h' : Host) : Failures :=
  if h'.aofRewritesCompleted ≠ h.aofRewritesCompleted then ⟨[], series.lastMs⟩
  else if h'.aofRewritesFailed ≠ h.aofRewritesFailed then
    ⟨series.delays ++ [h'.aofRewriteNextAttemptMs - h'.nowMs], h'.nowMs⟩
  else series

def countedStep (s : Host × Failures) (e : Event) : Host × Failures :=
  (step s.1 e, s.2.note s.1 (step s.1 e))

def counted (h : Host) (events : List Event) : Host × Failures :=
  Transition.run countedStep (h, ⟨[], 0⟩) events

theorem counted_fst (h : Host) (events : List Event) : (counted h events).1 = run h events := by
  induction events using List.reverseRecOn with
  | nil => rfl
  | append_singleton events e ih =>
    rw [counted, Transition.run_concat, ← counted, run_concat, ← ih]
    rfl

def delayAfter (config : ServerConfig) (n : Nat) : Int :=
  backoffDelay config.aofRewriteBackoffMaxMs n config.aofRewriteBackoffBaseMs

structure InSeries (config : ServerConfig) (h : Host) (series : Failures) : Prop where
  clock : 0 ≤ h.nowMs
  streak : h.aofRewriteFailedStreak = series.delays.length
  delays : series.delays = (List.range series.delays.length).map (delayAfter config)
  next : ∀ delay, series.delays.getLast? = some delay →
    h.aofRewriteNextAttemptMs = series.lastMs + delay
  last : 0 ≤ series.lastMs
  same : h.config = config

theorem InSeries.step {config : ServerConfig} {h : Host} {series : Failures} {e : Event}
    (inv : InSeries config h series) (ok : ClockOk e) :
    InSeries config (step h e) (series.note h (step h e)) := by
  obtain ⟨nowMs, clock, done⟩ := step_scheduled inv.clock ok
  generalize ServerRun.step h e = h' at done ⊢
  unfold Failures.note
  cases done with
  | same kept =>
    have completed : h'.aofRewritesCompleted = h.aofRewritesCompleted := kept.completed
    have failed : h'.aofRewritesFailed = h.aofRewritesFailed := kept.failed
    rw [if_neg (by simp [completed]), if_neg (by simp [failed])]
    exact ⟨kept.nowMs ▸ clock, kept.streak.trans inv.streak, inv.delays,
      fun delay last => kept.next.trans (inv.next delay last), inv.last, kept.config.trans inv.same⟩
  | failed config' nowMs' completed failed streak next =>
    have completed' : h'.aofRewritesCompleted = h.aofRewritesCompleted := completed
    have failed' : h'.aofRewritesFailed = h.aofRewritesFailed + 1 := failed
    have delay :
        h'.aofRewriteNextAttemptMs = h'.nowMs + delayAfter config series.delays.length := by
      rw [nowMs', next, ← inv.same, ← inv.streak]
      rfl
    rw [if_neg (by simp [completed']), if_pos (by omega)]
    refine ⟨nowMs' ▸ clock, ?_, ?_, ?_, nowMs' ▸ clock, config'.trans inv.same⟩
    · rw [streak, List.length_append, ← inv.streak]
      rfl
    · rw [List.length_append, List.length_singleton, List.range_succ, List.map_append, ← inv.delays,
        delay, add_sub_cancel_left]
      rfl
    · intro last eq
      rw [List.getLast?_concat, Option.some.injEq] at eq
      change h'.aofRewriteNextAttemptMs = h'.nowMs + last
      omega
  | completed config' nowMs' completed streak next =>
    have completed' : h'.aofRewritesCompleted = h.aofRewritesCompleted + 1 := completed
    rw [if_pos (by omega)]
    exact ⟨nowMs' ▸ clock, streak, rfl, fun delay none => by simp at none, inv.last,
      config'.trans inv.same⟩

theorem InSeries.run {config : ServerConfig} {h : Host} (inv : InSeries config h ⟨[], 0⟩)
    {events : List Event} (ok : ∀ e ∈ events, ClockOk e) :
    InSeries config (run h events) (counted h events).2 := by
  rw [← counted_fst]
  refine Transition.run_invariant (I := fun s : Host × Failures => InSeries config s.1 s.2)
    (P := fun _ e => ClockOk e) (fun _ _ inv ok => inv.step ok) inv ?_
  rw [Transition.along_iff_forall]
  rintro before e after rfl
  exact ok e (by simp)

theorem initServer_schedule {config : ServerConfig} {disk : Disk}
    {nowMs nowRealtimeMs realtimeMs : Int} {io : BootIo} {h : Host}
    (boot : initServer config disk nowMs nowRealtimeMs realtimeMs io = some h) (clock : 0 ≤ nowMs) :
    InSeries config h ⟨[], 0⟩ := by
  obtain ⟨db, disk', ino, lastSize, rfl, -⟩ := initServer_cases boot
  exact ⟨clock, rfl, rfl, fun _ none => by simp at none, le_rfl, rfl⟩

/-! The claim of the comment, and when it holds. -/

/-- Each delay of the series is twice the one before, up to the ceiling; nothing overflows
on the way to it, and the cron waits until the last one is over. -/
structure BacksOff (h : Host) (series : Failures) : Prop where
  doubles : ∀ n delay, series.delays[n]? = some delay →
    delay = min (h.config.aofRewriteBackoffBaseMs * 2 ^ n) h.config.aofRewriteBackoffMaxMs
  capped : ∀ delay ∈ series.delays, delay ≤ h.config.aofRewriteBackoffMaxMs
  grows : series.delays.Pairwise (· ≤ ·)
  streak : series.delays.length < 2 ^ 31
  products : ∀ n < series.delays.length, ∀ product ∈ backoffProducts
    h.config.aofRewriteBackoffMaxMs n h.config.aofRewriteBackoffBaseMs, product < 2 ^ 63
  waits : ∀ delay, series.delays.getLast? = some delay → ∀ nowMs nowRealtimeMs io,
    nowMs < series.lastMs + delay → startCalls h (.tick nowMs nowRealtimeMs io) = 0

theorem delayAfter_pos {config : ServerConfig} (accepted : Accepted config) (n : Nat) :
    0 < delayAfter config n := by
  obtain ⟨base, -⟩ := accepted.aofRewriteBackoffBaseMs
  obtain ⟨ceiling, -⟩ := accepted.aofRewriteBackoffMaxMs
  have positive (rounds : Nat) {delay : Int} (low : 0 < delay) :
      0 < backoffDelay config.aofRewriteBackoffMaxMs rounds delay := by
    induction rounds generalizing delay with
    | zero => exact low
    | succ rounds ih =>
      rw [backoffDelay]
      split
      · omega
      · exact ih (by omega)
  exact positive n (by omega)

/-- The closed form of the delays, for a base that is not above the ceiling. -/
theorem delayAfter_eq {config : ServerConfig} (accepted : Accepted config)
    (ordered : config.aofRewriteBackoffBaseMs ≤ config.aofRewriteBackoffMaxMs) (n : Nat) :
    delayAfter config n =
      min (config.aofRewriteBackoffBaseMs * 2 ^ n) config.aofRewriteBackoffMaxMs := by
  obtain ⟨base, -⟩ := accepted.aofRewriteBackoffBaseMs
  exact backoffDelay_eq n (by omega) (Or.inl ordered)

theorem delayAfter_mono {config : ServerConfig} (accepted : Accepted config)
    (ordered : config.aofRewriteBackoffBaseMs ≤ config.aofRewriteBackoffMaxMs) {m n : Nat}
    (le : m ≤ n) : delayAfter config m ≤ delayAfter config n := by
  obtain ⟨base, -⟩ := accepted.aofRewriteBackoffBaseMs
  rw [delayAfter_eq accepted ordered, delayAfter_eq accepted ordered]
  have powers : (2 : Int) ^ m ≤ 2 ^ n := pow_le_pow_right₀ (by decide) le
  exact min_le_min_right _ (Int.mul_le_mul_of_nonneg_left powers (by omega))

theorem InSeries.get {config : ServerConfig} {h : Host} {series : Failures}
    (inv : InSeries config h series) {n : Nat} {delay : Int}
    (at_n : series.delays[n]? = some delay) : delay = delayAfter config n := by
  rw [inv.delays, List.getElem?_map, Option.map_eq_some_iff] at at_n
  obtain ⟨m, hm, rfl⟩ := at_n
  obtain ⟨_, hm⟩ := List.getElem?_eq_some_iff.mp hm
  rw [← hm, List.getElem_range]

theorem startCalls_early {h : Host} {nowMs : Int} (set : 0 < h.aofRewriteNextAttemptMs)
    (early : nowMs < h.aofRewriteNextAttemptMs) (nowRealtimeMs : Int) (io : TickIo) :
    startCalls h (.tick nowMs nowRealtimeMs io) = 0 := by
  have kept := beforeCron_schedule nowMs nowRealtimeMs io h
  have next : (beforeCron nowMs nowRealtimeMs io h).aofRewriteNextAttemptMs =
      h.aofRewriteNextAttemptMs := kept.next
  have now : (beforeCron nowMs nowRealtimeMs io h).nowMs = nowMs := kept.nowMs
  change (if h.exited ∨ h.elStop then 0
    else cronStarts io.cron (beforeCron nowMs nowRealtimeMs io h)) = 0
  generalize beforeCron nowMs nowRealtimeMs io h = g at next now
  have waits : cronStarts io.cron g = 0 := by
    have refused : wantsRewrite io.cron.statted { g with lastCheckMs := g.nowMs } = false :=
      if_pos ⟨next ▸ set, by rw [next, now]; exact early⟩
    simp only [cronStarts, refused, Bool.false_eq_true, and_false, if_false, ite_self]
  exact ite_eq_left_iff.mpr fun _ => waits

/-- The delays of a run of failures are as they should be if and only if the base is not
above the ceiling, while the streak fits its `int`. -/
theorem backsOff_iff {config : ServerConfig} (accepted : Accepted config) {disk : Disk}
    {bootMs nowRealtimeMs realtimeMs : Int} (booted : 0 ≤ bootMs) {bootIo : BootIo} {start : Host}
    (boot : initServer config disk bootMs nowRealtimeMs realtimeMs bootIo = some start)
    (events : List Event) (clock : ∀ e ∈ events, ClockOk e)
    (failed : (counted start events).2.delays ≠ []) :
    BacksOff (run start events) (counted start events).2 ↔
      config.aofRewriteBackoffBaseMs ≤ config.aofRewriteBackoffMaxMs ∧
        (counted start events).2.delays.length < 2 ^ 31 := by
  have inv := (initServer_schedule boot booted).run clock
  generalize (counted start events).2 = series at failed inv ⊢
  obtain ⟨base, baseHigh⟩ := accepted.aofRewriteBackoffBaseMs
  obtain ⟨ceiling, ceilingHigh⟩ := accepted.aofRewriteBackoffMaxMs
  constructor
  · intro right
    refine ⟨?_, right.streak⟩
    obtain ⟨first, rest, eq⟩ := List.exists_cons_of_ne_nil failed
    have head : series.delays[0]? = some first := by rw [eq]; rfl
    have doubled := right.doubles 0 first head
    rw [inv.same, pow_zero, mul_one, inv.get head] at doubled
    have base_eq : delayAfter config 0 = config.aofRewriteBackoffBaseMs := rfl
    omega
  · rintro ⟨ordered, streak⟩
    refine ⟨fun n delay at_n => ?_, fun delay mem => ?_, ?_, streak, fun n _ product hp => ?_,
      fun delay last nowMs nowRealtimeMs io early => ?_⟩
    · rw [inv.same, inv.get at_n, delayAfter_eq accepted ordered]
    · obtain ⟨n, at_n⟩ := List.mem_iff_getElem?.mp mem
      rw [inv.same, inv.get at_n, delayAfter_eq accepted ordered]
      exact min_le_right _ _
    · rw [inv.delays, List.pairwise_map]
      exact List.pairwise_lt_range.imp fun less => delayAfter_mono accepted ordered less.le
    · rw [inv.same] at hp
      obtain ⟨-, bound⟩ := backoffProducts_le n (by omega) product hp
      omega
    · obtain ⟨n, at_n⟩ := List.mem_iff_getElem?.mp (List.mem_of_getLast? last)
      have positive := delayAfter_pos accepted n
      have next := inv.next delay last
      rw [← inv.get at_n] at positive
      have late := inv.last
      exact startCalls_early (by omega) (by omega) nowRealtimeMs io

def refusedStarts : List Event :=
  List.replicate 3 (.request rewriteRequest { start := { malloced := false } })

theorem backsOff_default :
    (counted (firstHost {}) refusedStarts).2.delays = [10000, 20000, 40000] ∧
      BacksOff (run (firstHost {}) refusedStarts) (counted (firstHost {}) refusedStarts).2 := by
  have delays : (counted (firstHost {}) refusedStarts).2.delays = [10000, 20000, 40000] := by
    decide +kernel
  refine ⟨delays, (backsOff_iff ⟨none, rfl⟩ le_rfl (firstHost_boot {}) refusedStarts ?_ ?_).mpr ?_⟩
  · simp [refusedStarts, ClockOk]
  · simp [delays]
  · simp [delays]

/-- A base above the ceiling, which the table allows, makes the first delay longer than the
ceiling and than the second. -/
theorem base_above_ceiling :
    serverConfig (some (ascii "aof-rewrite-backoff-base-ms 5000\naof-rewrite-backoff-max-ms 1000\n")) =
        some { aofRewriteBackoffBaseMs := 5000, aofRewriteBackoffMaxMs := 1000 } ∧
      (counted (firstHost { aofRewriteBackoffBaseMs := 5000, aofRewriteBackoffMaxMs := 1000 })
        refusedStarts).2.delays = [5000, 1000, 1000] ∧
      ¬ BacksOff
        (run (firstHost { aofRewriteBackoffBaseMs := 5000, aofRewriteBackoffMaxMs := 1000 })
          refusedStarts)
        (counted (firstHost { aofRewriteBackoffBaseMs := 5000, aofRewriteBackoffMaxMs := 1000 })
          refusedStarts).2 := by
  have delays : (counted (firstHost { aofRewriteBackoffBaseMs := 5000, aofRewriteBackoffMaxMs := 1000 })
      refusedStarts).2.delays = [5000, 1000, 1000] := by decide +kernel
  refine ⟨by decide +kernel, delays, fun right => ?_⟩
  have capped := right.capped 5000 (by simp [delays])
  exact absurd capped (by decide +kernel)

end ByteKV.RewriteBackoff
