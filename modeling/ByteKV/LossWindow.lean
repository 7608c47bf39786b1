import ByteKV.CleanFlag
import ByteKV.CrashRecovery

/-! The policy "pertick". `aof_cron` flushes the log when an interval has passed since it last
did; so all that a power loss can take is what was acknowledged within the last interval. -/
namespace ByteKV.LossWindow
open Config Database FileIo AofRecord ServerState AofAppend AofRewrite ServerRun StepCases
open RewriteInvariant LogInvariant LogTracking Command CleanFlag RewriteStates PowerLoss
open ExpiringLog AofLoad Recovery
open Lifetimes hiding labels
open Emission (emitted)

structure SameClock (h h' : Host) : Prop where
  config : h'.config = h.config
  nowMs : h'.nowMs = h.nowMs
  lastFsyncMs : h'.lastFsyncMs = h.lastFsyncMs

theorem SameClock.refl (h : Host) : SameClock h h := ⟨rfl, rfl, rfl⟩

theorem SameClock.trans {h h' h'' : Host} (a : SameClock h h') (b : SameClock h' h'') :
    SameClock h h'' :=
  ⟨b.config.trans a.config, b.nowMs.trans a.nowMs, b.lastFsyncMs.trans a.lastFsyncMs⟩

theorem aofEmitDiff_clock (h : Host) (reallocated : Bool) (buf : Bytes) :
    SameClock h (aofEmitDiff h reallocated buf) := by
  have copied (g : Host) : SameClock g (copyDiff g buf) := by
    unfold copyDiff
    split
    · exact .refl g
    · exact ⟨rfl, rfl, rfl⟩
  simp only [aofEmitDiff]
  split
  · split
    · exact ⟨rfl, rfl, rfl⟩
    · split
      · have grown (newCap : Nat) : SameClock h (growDiff h newCap) := ⟨rfl, rfl, rfl⟩
        exact (grown _).trans (copied _)
      · exact ⟨rfl, rfl, rfl⟩
  · exact copied h

theorem aofAppend_clock (io : AppendIo) (h : Host) (r : Record) :
    SameClock h (aofAppend io h r).1 := by
  have attempt := aofAppend_attempt io h r
  generalize (aofAppend io h r).1 = h' at attempt ⊢
  cases attempt with
  | unlogged off => exact .refl h
  | torn buf k on fits fault short => exact ⟨rfl, rfl, rfl⟩
  | whole buf on fits full =>
    have written : SameClock h (writtenWhole io h r buf) := by
      unfold writtenWhole aofAppendWritten
      simp only
      split
      · obtain ⟨config, nowMs, lastFsyncMs⟩ := aofEmitDiff_clock
          { h with
            disk := h.disk.append h.aofFd buf
            aofTotalWrites := h.aofTotalWrites + 1
            appended := h.appended ++ [r] } io.reallocated buf
        exact ⟨config, nowMs, lastFsyncMs⟩
      · exact ⟨rfl, rfl, rfl⟩
    refine written.trans ?_
    rcases aofMaybeFsyncAlways_cases (writtenWhole io h r buf) io.flushed with same | same <;>
      rw [same]
    · exact .refl _
    · exact ⟨rfl, rfl, rfl⟩

theorem aofAppend_dirty {io : AppendIo} {h : Host} {r : Record} (on : h.config.aofEnabled = true)
    (lazy : h.config.aofPolicy ≠ .always) (written : .error ∉ io.writes)
    (fits : r.key.length + r.value.length ≤ aofPayloadMax) :
    (aofAppend io h r).1.aofBufDirty = true := by
  have some := aofSerialize_isSome_iff.mpr fits
  have attempt := aofAppend_attempt io h r
  generalize (aofAppend io h r).1 = h' at attempt ⊢
  cases attempt with
  | unlogged off => simp [on, Option.isSome_iff_ne_none.mp some] at off
  | torn buf k on fits fault short => simp [faultAfter_eq_none written] at fault
  | whole buf on fits full =>
    have policy : (writtenWhole io h r buf).config.aofPolicy ≠ .always := by
      rw [(writtenWhole_spec io h r buf).1.config]
      exact lazy
    rw [aofMaybeFsyncAlways, if_pos policy]
    rfl

theorem aofRewriteStart_clock (io : StartIo) (h : Host) : SameClock h (aofRewriteStart io h).1 := by
  rcases aofRewriteStart_cases io h with eq | eq <;> rw [eq] <;> exact ⟨rfl, rfl, rfl⟩

theorem commandExecute_clock (io : RequestIo) (h : Host) (payload : Bytes) (outCap : Nat) :
    SameClock h (commandExecute io h payload outCap).1 := by
  have exec := commandExecute_cases io h payload outCap
  generalize commandExecute io h payload outCap = result at exec
  cases exec with
  | mutation r asks =>
    rcases replayDispatch h.db r.decoded with ⟨db, _ | _⟩
    · exact ⟨rfl, rfl, rfl⟩
    · have stored : SameClock h { h with db := db } := ⟨rfl, rfl, rfl⟩
      exact stored.trans (aofAppend_clock io.append _ r)
  | cleaned => exact ⟨rfl, rfl, rfl⟩
  | started => exact aofRewriteStart_clock io.start h
  | unchanged => exact .refl h

theorem request_clock (h : Host) (payload : Bytes) (io : RequestIo) :
    SameClock h (step h (.request payload io)) := by
  simp only [step]
  split
  · exact .refl h
  · exact commandExecute_clock io h payload msgMax

theorem aofRewriteCron_clock (io : CronIo) (h : Host) :
    SameClock h (aofRewriteCron io h) ∧ (aofRewriteCron io h).aofBufDirty = h.aofBufDirty := by
  rcases aofRewriteCron_ran io h with same | ⟨-, ran⟩
  · rw [same]
    exact ⟨.refl h, rfl⟩
  · generalize aofRewriteCron io h = h' at ran ⊢
    cases ran with
    | unchanged => exact ⟨⟨rfl, rfl, rfl⟩, rfl⟩
    | started idle =>
      let checked : Host := { h with lastCheckMs := h.nowMs }
      have clock := aofRewriteStart_clock io.start checked
      exact ⟨⟨clock.config, clock.nowMs, clock.lastFsyncMs⟩,
        (aofRewriteStart_flag io.start checked).dirty⟩
    | lost busy => exact ⟨⟨rfl, rfl, rfl⟩, rfl⟩
    | discarded busy g prepared =>
      cases io.finalize.unlinked <;> cases prepared <;> exact ⟨⟨rfl, rfl, rfl⟩, rfl⟩
    | installed active c child phase ino temp => exact ⟨⟨rfl, rfl, rfl⟩, rfl⟩

theorem aofRewriteCron_flushed (io : CronIo) {h : Host} (inv : RewriteInv h) (on : Flushed h)
    (clean : h.aofBufDirty = false) : Flushed (aofRewriteCron io h) := by
  have flag := aofRewriteCron_flag io inv
  have same := (aofRewriteCron_clock io h).2
  generalize aofRewriteCron io h = h' at flag same ⊢
  cases flag with
  | kept kept => exact kept.flushed on
  | dirtied dirty =>
    rw [same, clean] at dirty
    cases dirty
  | flushed on' => exact on'

/-! The window. -/

def flushInterval (config : ServerConfig) : Int :=
  max 1 ((config.aofCheckHz * 1000).tdiv config.hz)

/-- The mutations that may not be on the device yet, each with the time it was made at. -/
structure Window (h : Host) (pending : List (Int × Record)) : Prop where
  behind : h.lastFsyncMs ≤ h.nowMs
  young : ∀ p ∈ pending, h.lastFsyncMs ≤ p.1 ∧ h.nowMs < p.1 + flushInterval h.config
  dirty : pending ≠ [] → h.aofBufDirty = true

def Timely (h : Host) : Event → Prop
  | .tick nowMs _ io => h.nowMs ≤ nowMs ∧ io.flushed = true
  | _ => True

theorem aofCron_due {h : Host} (on : h.config.aofEnabled = true)
    (pertick : h.config.aofPolicy = .pertick) (dirty : h.aofBufDirty = true) :
    (aofCron true h = h ∧ h.nowMs < h.lastFsyncMs + flushInterval h.config) ∨
      (Flushed (aofCron true h) ∧ (aofCron true h).aofBufDirty = false) := by
  rw [aofCron, if_neg (by simp [on]), if_neg (by simp [pertick]), if_neg (by simp [dirty])]
  by_cases early : h.nowMs - h.lastFsyncMs < (h.config.aofCheckHz * 1000).tdiv h.config.hz
  · rw [if_pos early, flushInterval]
    exact Or.inl ⟨rfl, by omega⟩
  · rw [if_neg early]
    exact Or.inr ⟨flush_flushed { h with lastFsyncMs := h.nowMs }, rfl⟩

theorem aofCron_behind (flushed : Bool) {h : Host} (behind : h.lastFsyncMs ≤ h.nowMs) :
    (aofCron flushed h).lastFsyncMs ≤ (aofCron flushed h).nowMs := by
  rcases aofCron_cases flushed h with same | same | same
  · rw [same]
    exact behind
  · rw [same]
  · rw [same]

section Step
variable {h : Host} {pending : List (Int × Record)}

theorem Window.same (window : Window h pending) {h' : Host} (clock : SameClock h h')
    (dirty : h.aofBufDirty = true → h'.aofBufDirty = true) : Window h' pending where
  behind := by
    rw [clock.nowMs, clock.lastFsyncMs]
    exact window.behind
  young p hp := by
    rw [clock.nowMs, clock.lastFsyncMs, clock.config]
    exact window.young p hp
  dirty some := dirty (window.dirty some)

theorem Window.made (window : Window h pending) (dirty : h.aofBufDirty = true) (r : Record) :
    Window h (pending ++ [(h.nowMs, r)]) where
  behind := window.behind
  young p hp := by
    rcases List.mem_append.mp hp with old | new
    · exact window.young p old
    · obtain rfl := List.mem_singleton.mp new
      refine ⟨window.behind, ?_⟩
      simp only [flushInterval]
      omega
  dirty _ := dirty

theorem Window.none (behind : h.lastFsyncMs ≤ h.nowMs) : Window h [] :=
  ⟨behind, nofun, fun some => absurd rfl some⟩

theorem Window.later (window : Window h pending) {g : Host}
    (lastFsyncMs : g.lastFsyncMs = h.lastFsyncMs) (dirty : g.aofBufDirty = h.aofBufDirty)
    (behind : g.lastFsyncMs ≤ g.nowMs)
    (recent : g.nowMs < g.lastFsyncMs + flushInterval g.config) : Window g pending where
  behind := behind
  young p hp := by
    have after := (window.young p hp).1
    rw [lastFsyncMs] at recent ⊢
    exact ⟨after, by omega⟩
  dirty some := dirty.trans (window.dirty some)

theorem Window.ticked (window : Window h pending) (on : h.config.aofEnabled = true)
    (pertick : h.config.aofPolicy = .pertick) (inv : RewriteInv h) {nowMs nowRealtimeMs : Int}
    {io : TickIo} (later : h.nowMs ≤ nowMs) (flushed : io.flushed = true) :
    (Flushed (beforeSleep nowMs nowRealtimeMs io h) ∧
        Window (beforeSleep nowMs nowRealtimeMs io h) []) ∨
      Window (beforeSleep nowMs nowRealtimeMs io h) pending := by
  let begun : Host :=
    { h with nowMs := nowMs, nowRealtimeMs := nowRealtimeMs, cronloops := h.cronloops + 1 }
  have swept : SameClock begun (activeExpireCron io begun) :=
    activeExpireCron_induct (I := fun g => SameClock begun g)
      (fun _ _ _ same => ⟨same.config, same.nowMs, same.lastFsyncMs⟩) begun rfl (.refl begun)
  have dirty := (activeExpireCron_sameLog nowMs nowRealtimeMs io h).dirty
  have logged := LogHandover.beforeCron_rewriteInv inv nowMs nowRealtimeMs io
  have eq : beforeSleep nowMs nowRealtimeMs io h =
    aofRewriteCron io.cron (aofCron true (activeExpireCron io begun)) := by rw [← flushed]; rfl
  rw [beforeCron, flushed] at logged
  rw [eq]
  change (activeExpireCron io begun).aofBufDirty = _ at dirty
  change RewriteInv (aofCron true (activeExpireCron io begun)) at logged
  generalize activeExpireCron io begun = g at swept dirty logged
  have behind : g.lastFsyncMs ≤ g.nowMs := by
    rw [swept.nowMs, swept.lastFsyncMs]
    exact window.behind.trans later
  obtain ⟨cron, same⟩ := aofRewriteCron_clock io.cron (aofCron true g)
  have empty : Window (aofRewriteCron io.cron (aofCron true g)) [] :=
    (Window.none (aofCron_behind true behind)).same cron fun set => same.trans set
  by_cases none : pending = []
  · exact Or.inr (none ▸ empty)
  · have set : g.aofBufDirty = true := dirty.trans (window.dirty none)
    rcases aofCron_due (swept.config ▸ on) (swept.config ▸ pertick) set
      with ⟨idle, recent⟩ | ⟨done, clean⟩
    · right
      rw [idle] at cron same ⊢
      exact (window.later swept.lastFsyncMs dirty behind recent).same cron
        fun set => same.trans set
    · exact Or.inl ⟨aofRewriteCron_flushed io.cron logged done clean, empty⟩

theorem Window.quiet (window : Window h pending) {h' : Host} (clock : SameClock h h')
    (flag : FlagStep h h') : (Flushed h' ∧ Window h' []) ∨ Window h' pending := by
  cases flag with
  | kept same => exact Or.inr (window.same clock fun set => same.dirty.trans set)
  | dirtied dirty => exact Or.inr (window.same clock fun _ => dirty)
  | flushed on =>
    have behind : h'.lastFsyncMs ≤ h'.nowMs := by
      rw [clock.nowMs, clock.lastFsyncMs]
      exact window.behind
    exact Or.inl ⟨on, .none behind⟩

/-- Every event flushes the log, or adds its mutation to what is pending. -/
theorem Window.step (window : Window h pending) (on : h.config.aofEnabled = true)
    (pertick : h.config.aofPolicy = .pertick) (inv : RewriteInv h) {t : Int} {e : Event}
    (safe : SafeStep t h e) (timely : Timely h e) :
    (Flushed (step h e) ∧ Window (step h e) []) ∨
      Window (step h e) (pending ++ (mutation h e).toList.map fun r => (h.nowMs, r)) := by
  have written : LogWritten e := by
    cases e with
    | request payload io => exact safe.1
    | _ => trivial
  have flag := step_flag inv written
  cases makes : mutation h e with
  | none =>
    rw [Option.toList_none, List.map_nil, List.append_nil]
    cases e with
    | tick nowMs nowRealtimeMs io =>
      simp only [ServerRun.step]
      split
      · exact Or.inr window
      · split
        · exact Or.inr (window.same ⟨rfl, rfl, rfl⟩ id)
        · exact window.ticked on pertick inv timely.1 timely.2
    | request payload io => exact window.quiet (request_clock h payload io) flag
    | child realtimeMs io | childKilled | childSignal | signal | shutdown =>
      refine window.quiet ?_ flag
      simp only [ServerRun.step, signalChild]
      repeat' split
      all_goals exact ⟨rfl, rfl, rfl⟩
  | some r =>
    cases e with
    | request payload io =>
      rw [step_mutated makes]
      let stored : Host := { h with db := (replayDispatch h.db r.decoded).1 }
      have lazy : stored.config.aofPolicy ≠ .always := by simp [stored, pertick]
      have dirty : (aofAppend io.append stored r).1.aofBufDirty = true :=
        aofAppend_dirty on lazy safe.1 (safe.2 r makes).1
      have clock := aofAppend_clock io.append stored r
      have now : (aofAppend io.append stored r).1.nowMs = h.nowMs := clock.nowMs
      have held : Window stored pending := window.same ⟨rfl, rfl, rfl⟩ id
      have same : Window (aofAppend io.append stored r).1 pending := held.same clock fun _ => dirty
      have next := same.made dirty r
      rw [now] at next
      exact Or.inr next
    | tick | child | childKilled | childSignal | signal | shutdown => cases makes

end Step

/-! Runs. -/

def aged (n : Int) (h : Host) (e : Event) : List Record :=
  if h.nowMs + flushInterval h.config ≤ n then (mutation h e).toList else []

def overdue (n interval : Int) (pending : List (Int × Record)) : List Record :=
  (pending.filter fun p => p.1 + interval ≤ n).map Prod.snd

theorem Window.overdue {h : Host} {pending : List (Int × Record)} (window : Window h pending) :
    overdue h.nowMs (flushInterval h.config) pending = [] := by
  rw [LossWindow.overdue, List.filter_eq_nil_iff.mpr, List.map_nil]
  intro p hp
  have young := (window.young p hp).2
  simpa using young

theorem overdue_append (n interval : Int) (pending more : List (Int × Record)) :
    overdue n interval (pending ++ more) = overdue n interval pending ++ overdue n interval more := by
  rw [overdue, List.filter_append, List.map_append, overdue, overdue]

theorem overdue_sublist (n interval : Int) (pending : List (Int × Record)) :
    (overdue n interval pending).Sublist (pending.map Prod.snd) :=
  List.filter_sublist.map _

theorem overdue_made (n : Int) (h : Host) (e : Event) :
    overdue n (flushInterval h.config) ((mutation h e).toList.map fun r => (h.nowMs, r)) =
      aged n h e := by
  rw [aged]
  cases mutation h e with
  | none => simp [overdue]
  | some r => by_cases old : h.nowMs + flushInterval h.config ≤ n <;> simp [overdue, old]

theorem emitted_aged {t : Int} {h : Host} {events : List Event} {pending : List (Int × Record)}
    (window : Window h pending) (on : h.config.aofEnabled = true)
    (pertick : h.config.aofPolicy = .pertick) (inv : RewriteInv h)
    (safe : Transition.Along step (SafeStep t) h events)
    (timely : Transition.Along step Timely h events) (ls : List (Journal.Label Record)) :
    (overdue (run h events).nowMs (flushInterval h.config) pending ++
        emitted step (aged (run h events).nowMs) h events ++ Journal.secured [] ls).Sublist
      (Journal.secured (pending.map Prod.snd) (emitted step Lifetimes.labels h events ++ ls)) := by
  induction events generalizing h pending with
  | nil =>
    change (overdue h.nowMs (flushInterval h.config) pending ++ [] ++ _).Sublist _
    rw [window.overdue]
    exact Journal.secured_mono (List.nil_sublist _) ls
  | cons e events ih =>
    let now := pending ++ (mutation h e).toList.map fun r => (h.nowMs, r)
    have config : (step h e).config = h.config := config_run h [e]
    have next (left : List (Int × Record)) (window : Window (step h e) left) :=
      ih window (config ▸ on) (config ▸ pertick) (rewriteInv_step inv e) safe.2 timely.2
    have made : overdue (run h (e :: events)).nowMs (flushInterval h.config) pending ++
        aged (run h (e :: events)).nowMs h e =
          overdue (run h (e :: events)).nowMs (flushInterval h.config) now := by
      rw [overdue_append, overdue_made]
    have appended (more : List (Journal.Label Record)) :
        Journal.secured (pending.map Prod.snd) ((mutation h e).toList.map .append ++ more) =
          Journal.secured (now.map Prod.snd) more := by
      simp only [now]
      cases mutation h e <;> simp [Journal.secured]
    rw [emitted, emitted, Lifetimes.labels, ← List.append_assoc, made, List.append_assoc,
      List.append_assoc, List.append_assoc, appended]
    by_cases flushed : Flushed (step h e)
    · have empty : Window (step h e) [] := by
        rcases window.step on pertick inv safe.1 timely.1 with ⟨-, empty⟩ | full
        · exact empty
        · exact .none full.behind
      rw [if_pos flushed]
      exact (overdue_sublist _ _ now).append (next [] empty)
    · rcases window.step on pertick inv safe.1 timely.1 with ⟨on, -⟩ | full
      · exact absurd on flushed
      · rw [if_neg flushed, List.nil_append, ← List.append_assoc]
        have rest := next now full
        rw [config] at rest
        exact rest

/-! Lives. -/

/-- The mutations of a life that were made an interval or more before its last tick. -/
def settled (life : Life) (h : Host) : List Record :=
  emitted step (aged (run h life.events).nowMs) h life.events

/-- The monotonic clock is one, and no periodic fsync fails. -/
structure Ticking (life : Life) (h : Host) : Prop where
  pertick : life.boot.config.aofPolicy = .pertick
  start : 0 ≤ life.boot.nowMs
  timely : Transition.Along step Timely h life.events

/-- A life that ends in its second record, which no tick has followed. -/
def tickedSet : Life where
  boot := ⟨{ aofPolicy := .pertick }, 0, 0, 0, { junk := zeroed, clock := fun _ => 0 }⟩
  events := [.request (ascii "SET k v") {}, .tick 10000 0 {}, .request (ascii "SET x y") {}]
  death := { power := true, aof := some 0, kept := (image 0 [setRecord]).length + 5 }

theorem tickedSet_lived : ∃ disk' ls h,
    outcome .blank [tickedSet] = some (disk', ls) ∧ nextBoot.start disk' = some h := by
  have starts :
      ((outcome .blank [tickedSet]).bind fun out => nextBoot.start out.1).isSome = true := by
    decide +kernel
  obtain ⟨h, starts⟩ := Option.isSome_iff_exists.mp starts
  obtain ⟨⟨disk', ls⟩, lived, boot⟩ := Option.bind_eq_some_iff.mp starts
  exact ⟨disk', ls, h, lived, boot⟩

theorem tickedSet_careful : Careful nextBoot.nowRealtimeMs .blank [tickedSet] := by
  refine ⟨⟨rfl, rfl, zeroed_length, .silent, rfl⟩, fun h boot => ?_⟩
  have checks : ((tickedSet.boot.start .blank).all fun h => decide
      (SafeStep 1000 h (.request (ascii "SET k v") {}) ∧
        SafeStep 1000 (run h (tickedSet.events.take 2)) (.request (ascii "SET x y") {}) ∧
        (run h tickedSet.events).disk.synced 0 ≤ tickedSet.death.kept)) = true := by
    decide +kernel
  rw [boot, Option.all_some, decide_eq_true_eq] at checks
  obtain ⟨first, second, possible⟩ := checks
  refine ⟨fun u hu => ?_, fun ino named => Option.some.inj named ▸ possible, trivial⟩
  obtain rfl : u = nextBoot.nowRealtimeMs := by simpa [restarts] using hu
  exact ⟨by decide, ⟨first, ⟨by decide, fun _ _ => rfl⟩, second, trivial⟩,
    fun e elsewhere => by cases elsewhere⟩

theorem tickedSet_survives : EntriesSurvive .blank [tickedSet] := by
  refine fun h boot => ⟨fun _ => ?_, trivial⟩
  have check : ((tickedSet.boot.start .blank).all fun h => decide
      (tickedSet.death.aof = (run h tickedSet.events).disk.aof)) = true := by
    decide +kernel
  rw [boot, Option.all_some, decide_eq_true_eq] at check
  exact ⟨check, by decide +kernel⟩

end ByteKV.LossWindow
