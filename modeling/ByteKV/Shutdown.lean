import ByteKV.RewriteInvariant
import Mathlib.Tactic.SplitIfs

/-! The shutdown pipe once a rewrite has forked. The child has the handler of the
parent and its end of the pipe, so a SIGTERM meant for the child ends up in the event
loop of the parent. -/
namespace ByteKV.Shutdown
open Config Database FileIo AofRecord ServerState AofAppend AofRewrite ServerRun
open StepCases RewriteInvariant Command CommandLine

structure Still (h h' : Host) : Prop where
  pipe : h'.pipe = h.pipe
  elStop : h'.elStop = h.elStop
  exited : h'.exited = h.exited

theorem Still.refl (h : Host) : Still h h := ⟨rfl, rfl, rfl⟩

theorem Still.trans {h h' h'' : Host} (a : Still h h') (b : Still h' h'') : Still h h'' :=
  ⟨b.pipe.trans a.pipe, b.elStop.trans a.elStop, b.exited.trans a.exited⟩

/-! The write path. -/

theorem copyDiff_still (h : Host) (buf : Bytes) : Still h (copyDiff h buf) := by
  unfold copyDiff
  split
  · exact .refl h
  · exact ⟨rfl, rfl, rfl⟩

theorem aofEmitDiff_still (h : Host) (reallocated : Bool) (buf : Bytes) :
    Still h (aofEmitDiff h reallocated buf) := by
  have abort : Still h (aofAbortRewrite h) := ⟨rfl, rfl, rfl⟩
  have grown (newCap : Nat) : Still h (growDiff h newCap) := ⟨rfl, rfl, rfl⟩
  simp only [aofEmitDiff]
  split
  · split
    · exact abort
    · split
      · exact (grown _).trans (copyDiff_still _ buf)
      · exact abort
  · exact copyDiff_still h buf

theorem aofAppendWritten_still (io : AppendIo) (h : Host) (r : Record) (buf : Bytes) :
    Still h (aofAppendWritten io h r buf) := by
  have logged : Still h { h with appended := h.appended ++ [r] } := ⟨rfl, rfl, rfl⟩
  have dirty (g : Host) : Still g { g with aofBufDirty := true } := ⟨rfl, rfl, rfl⟩
  simp only [aofAppendWritten]
  split
  · exact logged.trans ((aofEmitDiff_still _ _ _).trans (dirty _))
  · exact logged.trans (dirty _)

theorem aofMaybeFsyncAlways_still (h : Host) (flushed : Bool) :
    Still h (aofMaybeFsyncAlways h flushed).1 := by
  rcases aofMaybeFsyncAlways_cases h flushed with same | same <;> rw [same]
  · exact .refl h
  · exact ⟨rfl, rfl, rfl⟩

theorem aofAppend_still (io : AppendIo) (h : Host) (r : Record) : Still h (aofAppend io h r).1 := by
  have attempt := aofAppend_attempt io h r
  generalize (aofAppend io h r).1 = h' at attempt ⊢
  cases attempt with
  | unlogged off => exact .refl h
  | torn buf k on fits fault short => exact ⟨rfl, rfl, rfl⟩
  | whole buf on fits full =>
    have logged : Still h { h with
        disk := h.disk.append h.aofFd buf, aofTotalWrites := h.aofTotalWrites + 1 } :=
      ⟨rfl, rfl, rfl⟩
    have written : Still h (writtenWhole io h r buf) :=
      logged.trans (aofAppendWritten_still io _ r buf)
    exact written.trans (aofMaybeFsyncAlways_still _ _)

def Overflows (h : Host) (reallocated : Bool) (buf : Bytes) : Prop :=
  h.aofRewriteCap < h.aofRewriteLen + buf.length ∧
    (toU64 h.config.aofRewriteBufMaxSize < h.aofRewriteLen + buf.length ∨ reallocated = false)

instance (h : Host) (reallocated : Bool) (buf : Bytes) : Decidable (Overflows h reallocated buf) :=
  inferInstanceAs (Decidable (_ ∧ _))

theorem aofEmitDiff_child (h : Host) (reallocated : Bool) (buf : Bytes) :
    (aofEmitDiff h reallocated buf).child =
      if Overflows h reallocated buf then h.child.map (kill h.aofRewritePid) else h.child := by
  have copied (g : Host) : (copyDiff g buf).child = g.child := (copyDiff_state g buf).2
  simp only [aofEmitDiff, Overflows]
  by_cases large : h.aofRewriteLen + buf.length > h.aofRewriteCap
  · by_cases most : h.aofRewriteLen + buf.length > toU64 h.config.aofRewriteBufMaxSize
    · simp [large, most, aofAbortRewrite]
    · cases reallocated with
      | false => simp [large, most, aofAbortRewrite]
      | true => simp [large, most, copied, growDiff]
  · simp [large, copied]

def AbortsRewrite (io : AppendIo) (h : Host) (r : Record) : Prop :=
  h.config.aofEnabled = true ∧ h.aofRewriteState = .active ∧
    ∃ buf ∈ aofSerialize aofRecordMax r, (writeAll io.writes buf).2 = true ∧
      Overflows h io.reallocated buf

instance (io : AppendIo) (h : Host) (r : Record) : Decidable (AbortsRewrite io h r) :=
  inferInstanceAs (Decidable (_ ∧ _ ∧ ∃ _ ∈ _, _))

theorem aofAppend_child (io : AppendIo) (h : Host) (r : Record) :
    (aofAppend io h r).1.child =
      if AbortsRewrite io h r then h.child.map (kill h.aofRewritePid) else h.child := by
  have attempt := aofAppend_attempt io h r
  generalize (aofAppend io h r).1 = h' at attempt ⊢
  cases attempt with
  | unlogged off =>
    rw [if_neg]
    rintro ⟨on, -, buf, fits, -⟩
    rcases off with off | none
    · exact Bool.false_ne_true (off.symm.trans on)
    · simp [none] at fits
  | torn buf k on fits fault short =>
    have torn : (writeAll io.writes buf).2 = false := by rw [writeAll_of_fault fault short]
    rw [if_neg]
    simp [AbortsRewrite, fits, torn]
  | whole buf on fits full =>
    rw [(aofMaybeFsyncAlways_rewrite _ _).1.child]
    have whole := writeAll_ok_iff.mpr full
    by_cases active : h.aofRewriteState = .active
    · simp only [writtenWhole, aofAppendWritten, active, if_true, aofEmitDiff_child]
      by_cases full : Overflows h io.reallocated buf
      · have aborts : AbortsRewrite io h r := ⟨on, active, buf, fits, whole, full⟩
        rw [if_pos aborts]
        exact if_pos full
      · have goesOn : ¬ AbortsRewrite io h r := by simp [AbortsRewrite, fits, full]
        rw [if_neg goesOn]
        exact if_neg full
    · simp [writtenWhole, aofAppendWritten, active, AbortsRewrite]

theorem aofAppend_pid (io : AppendIo) (h : Host) (r : Record) :
    (aofAppend io h r).1.aofRewritePid = h.aofRewritePid :=
  (aofAppend_frame io h r).1.aofRewritePid

/-! The cron. -/

theorem aofRewriteStart_still (io : StartIo) (h : Host) : Still h (aofRewriteStart io h).1 := by
  rcases aofRewriteStart_cases io h with eq | eq <;> rw [eq]
  · exact ⟨rfl, rfl, rfl⟩
  · exact ⟨rfl, rfl, rfl⟩

theorem discard_still (unlinked : Bool) (h : Host) : Still h (discard unlinked h) := by
  cases unlinked <;> exact ⟨rfl, rfl, rfl⟩

theorem aofRewriteCron_still (io : CronIo) (h : Host) : Still h (aofRewriteCron io h) := by
  rcases aofRewriteCron_ran io h with same | ⟨-, ran⟩
  · exact same.symm ▸ .refl h
  · generalize aofRewriteCron io h = h' at ran ⊢
    cases ran with
    | unchanged => exact ⟨rfl, rfl, rfl⟩
    | started idle =>
      have checked : Still h { h with lastCheckMs := h.nowMs } := ⟨rfl, rfl, rfl⟩
      exact checked.trans (aofRewriteStart_still io.start _)
    | lost busy => exact ⟨rfl, rfl, rfl⟩
    | discarded busy g prepared =>
      have prepared : Still h g := by cases prepared <;> exact ⟨rfl, rfl, rfl⟩
      exact prepared.trans (discard_still _ g)
    | installed active c child phase ino temp => exact ⟨rfl, rfl, rfl⟩

theorem aofCron_still (flushed : Bool) (h : Host) : Still h (aofCron flushed h) := by
  rcases aofCron_cases flushed h with same | same | same <;> rw [same]
  · exact .refl h
  · exact ⟨rfl, rfl, rfl⟩
  · exact ⟨rfl, rfl, rfl⟩

theorem beforeSleep_still (nowMs nowRealtimeMs : Int) (io : TickIo) (h : Host) :
    Still h (beforeSleep nowMs nowRealtimeMs io h) := by
  let begun : Host :=
    { h with nowMs := nowMs, nowRealtimeMs := nowRealtimeMs, cronloops := h.cronloops + 1 }
  have expired : Still h (activeExpireCron io begun) :=
    activeExpireCron_induct (I := Still h)
      (fun g key _ still => ⟨still.pipe, still.elStop, still.exited⟩) begun rfl ⟨rfl, rfl, rfl⟩
  exact expired.trans ((aofCron_still _ _).trans (aofRewriteCron_still _ _))

/-! A run in which no signal reaches the server or its child from outside. -/

/-- Nothing is in the pipe, and a running child has no signal pending. -/
structure Undisturbed (h : Host) : Prop where
  pipe : h.pipe = 0
  elStop : h.elStop = false
  exited : h.exited = false
  pid : ∀ c, h.child = some c → h.aofRewritePid = some c.pid
  pending : ∀ c, h.child = some c → c.phase.running = true → c.sigterm = false

def AbortsRunning (h : Host) : Event → Prop
  | .request payload io => h.child.any (·.phase.running) = true ∧
      ∃ r ∈ mutation h (.request payload io), AbortsRewrite io.append h r
  | _ => False

instance (h : Host) : (e : Event) → Decidable (AbortsRunning h e)
  | .request _ _ => inferInstanceAs (Decidable (_ ∧ ∃ _ ∈ _, _))
  | .tick _ _ _ | .child _ _ | .childKilled | .childSignal | .signal | .shutdown =>
      inferInstanceAs (Decidable False)

section Undisturbed
variable {h h' : Host}

theorem Undisturbed.still (inv : Undisturbed h) (still : Still h h') (child : h'.child = h.child)
    (pid : h'.aofRewritePid = h.aofRewritePid) : Undisturbed h' where
  pipe := still.pipe.trans inv.pipe
  elStop := still.elStop.trans inv.elStop
  exited := still.exited.trans inv.exited
  pid c hc := pid.trans (inv.pid c (child ▸ hc))
  pending c hc := inv.pending c (child ▸ hc)

theorem Undisturbed.fork (inv : Undisturbed h) : Undisturbed (forkChild h) where
  pipe := inv.pipe
  elStop := inv.elStop
  exited := inv.exited
  pid := by
    rintro _ ⟨rfl⟩
    rfl
  pending := by
    rintro _ ⟨rfl⟩ _
    rfl

theorem Undisturbed.childless (inv : Undisturbed h) (still : Still h h') (none : h'.child = none) :
    Undisturbed h' where
  pipe := still.pipe.trans inv.pipe
  elStop := still.elStop.trans inv.elStop
  exited := still.exited.trans inv.exited
  pid c hc := by simp [none] at hc
  pending c hc := by simp [none] at hc

theorem Undisturbed.start (inv : Undisturbed h) (io : StartIo) :
    Undisturbed (aofRewriteStart io h).1 := by
  rcases aofRewriteStart_cases io h with eq | eq <;> rw [eq]
  · exact inv.still ⟨rfl, rfl, rfl⟩ rfl rfl
  · exact inv.fork

/-- SIGTERM is sent to the child of an aborted rewrite; one that has ended ignores it. -/
theorem Undisturbed.append (inv : Undisturbed h) (io : AppendIo) (r : Record)
    (calm : h.child.any (·.phase.running) = true → ¬ AbortsRewrite io h r) :
    Undisturbed (aofAppend io h r).1 := by
  have still := aofAppend_still io h r
  have pid := aofAppend_pid io h r
  have child := aofAppend_child io h r
  by_cases aborts : AbortsRewrite io h r
  · rw [if_pos aborts] at child
    refine ⟨still.pipe.trans inv.pipe, still.elStop.trans inv.elStop, still.exited.trans inv.exited,
      fun c hc => ?_, fun c hc runs => ?_⟩ <;>
      obtain ⟨c₀, hc₀, rfl⟩ := Option.map_eq_some_iff.mp (child ▸ hc)
    · rw [pid, inv.pid c₀ hc₀, kill]
      split <;> rfl
    · have running : c₀.phase.running = true := by
        rw [kill] at runs
        split at runs <;> exact runs
      exact absurd aborts (calm (by simp [hc₀, running]))
  · rw [if_neg aborts] at child
    exact inv.still still child pid

theorem Undisturbed.execute (inv : Undisturbed h) (running : h.exited = false) {payload : Bytes}
    (short : payload.length ≤ msgMax) {io : RequestIo}
    (calm : ¬ AbortsRunning h (.request payload io)) :
    Undisturbed (commandExecute io h payload msgMax).1 := by
  have withDb (db : Db) : Undisturbed { h with db := db } := inv.still ⟨rfl, rfl, rfl⟩ rfl rfl
  have exec := commandExecute_cases io h payload msgMax
  generalize commandExecute io h payload msgMax = result at exec ⊢
  cases exec with
  | mutation r asks =>
    rcases eq : replayDispatch h.db r.decoded with ⟨db, _ | _⟩
    · exact withDb db
    · refine (withDb db).append io.append r fun alive aborts => calm ⟨alive, r, ?_, aborts⟩
      exact mutation_iff.mpr ⟨⟨running, short⟩, asks, by rw [eq]⟩
  | cleaned key out asks => exact withDb _
  | started out asks idle => exact inv.start _
  | unchanged out asks => exact inv

theorem Undisturbed.tick (inv : Undisturbed h) (nowMs nowRealtimeMs : Int) (io : TickIo) :
    Undisturbed (beforeSleep nowMs nowRealtimeMs io h) := by
  have still := beforeSleep_still nowMs nowRealtimeMs io h
  obtain ⟨g, ⟨child, pid⟩, outcome⟩ := beforeSleep_cases nowMs io h
    (I := fun g => g.child = h.child ∧ g.aofRewritePid = h.aofRewritePid) ⟨rfl, rfl⟩
    (fun g key _ _ hg => hg) (fun g g' q hg => ⟨q.child.trans hg.1, q.pid.trans hg.2⟩)
  cases outcome with
  | quiet q => exact inv.still still (q.child.trans child) (q.pid.trans pid)
  | started idle eq =>
    refine ⟨still.pipe.trans inv.pipe, still.elStop.trans inv.elStop, still.exited.trans inv.exited,
      fun c hc => ?_, fun c hc _ => ?_⟩ <;> rw [eq] at hc <;> obtain rfl := Option.some.inj hc
    · rw [eq]
      rfl
    · rfl
  | ended busy stopped => exact inv.childless still stopped.child
  | installed c ino done => exact inv.childless still done.child'

theorem childStep_signal (now : Int) (io : ChildIo) (c : Child) (disk : Disk) :
    (childStep now io c disk).1.sigterm = c.sigterm ∧
      ((childStep now io c disk).1.phase.running = true → c.phase.running = true) := by
  unfold childStep
  split
  · rename_i phase
    exact ⟨rfl, fun _ => by simp [phase, ChildPhase.running]⟩
  · rename_i phase
    exact ⟨rfl, fun _ => by simp [phase, ChildPhase.running]⟩
  · exact ⟨rfl, id⟩

theorem Undisturbed.withChild (inv : Undisturbed h) {c c' : Child} (disk : Disk)
    (child : h.child = some c) (pid : c'.pid = c.pid)
    (pending : c'.phase.running = true → c'.sigterm = false) :
    Undisturbed { h with child := some c', disk := disk } where
  pipe := inv.pipe
  elStop := inv.elStop
  exited := inv.exited
  pid := by
    rintro _ ⟨rfl⟩
    exact pid ▸ inv.pid c child
  pending := by
    rintro _ ⟨rfl⟩
    exact pending

theorem undisturbed_step (inv : Undisturbed h) {e : Event} (inside : e ≠ .signal)
    (calm : ¬ AbortsRunning h e) : Undisturbed (step h e) := by
  cases e with
  | request payload io =>
    simp only [step]
    split
    · exact inv
    · rename_i runs
      rw [not_or, Bool.not_eq_true, not_lt] at runs
      exact inv.execute runs.1 runs.2 calm
  | tick nowMs nowRealtimeMs io =>
    have runs : ¬ h.exited = true := by simp [inv.exited]
    have goesOn : ¬ h.elStop = true := by simp [inv.elStop]
    simp only [step, if_neg runs, if_neg goesOn]
    exact inv.tick nowMs nowRealtimeMs io
  | child realtimeMs io =>
    simp only [step]
    split
    · exact inv
    · rename_i c child
      obtain ⟨same, alive⟩ := childStep_signal realtimeMs io c h.disk
      exact inv.withChild _ child (childStep_same _ _ _ _).1 fun runs =>
        same.trans (inv.pending c child (alive runs))
  | childKilled =>
    simp only [step]
    split
    · exact inv
    · rename_i c child
      refine inv.withChild h.disk child ?_ fun runs => ?_
      · unfold killChild
        split <;> rfl
      · unfold killChild at runs ⊢
        split at runs
        · exact absurd runs (by simp [ChildPhase.running])
        · rename_i ended
          exact absurd runs ended
  | childSignal =>
    simp only [step]
    split
    · exact inv
    · rename_i c child
      have unsent : ¬ (c.sigterm = true ∧ c.phase.running = true) := fun both =>
        absurd (inv.pending c child both.2) (by simp [both.1])
      rwa [signalChild, if_neg unsent]
  | signal => exact absurd rfl inside
  | shutdown =>
    have empty : h.exited = true ∨ h.pipe = 0 := Or.inr inv.pipe
    rwa [step, if_pos empty]

theorem Undisturbed.aborted (inv : Undisturbed h) {e : Event} (aborts : AbortsRunning h e) :
    (run h [e, .childSignal, .shutdown]).elStop = true := by
  cases e with
  | request payload io =>
    obtain ⟨alive, r, makes, overflow⟩ := aborts
    obtain ⟨c, child, running⟩ : ∃ c, h.child = some c ∧ c.phase.running = true := by
      simpa [Option.any_eq_true] using alive
    let g : Host := { h with db := (replayDispatch h.db r.decoded).1 }
    have stored : Still h g := ⟨rfl, rfl, rfl⟩
    have still := stored.trans (aofAppend_still io.append g r)
    have signalled : (aofAppend io.append g r).1.child = some { c with sigterm := true } := by
      have sent := aofAppend_child io.append g r
      rw [if_pos (show AbortsRewrite io.append g r from overflow)] at sent
      rw [sent]
      change h.child.map (kill h.aofRewritePid) = _
      rw [child, inv.pid c child, Option.map_some, kill, if_pos rfl]
    simp only [run, Transition.run_cons, Transition.run_nil, step_mutated makes]
    change (ServerRun.step (ServerRun.step (aofAppend io.append g r).1 _) _).elStop = true
    have exited := still.exited.trans inv.exited
    generalize (aofAppend io.append g r).1 = g' at signalled exited
    have taken : ServerRun.step g' .childSignal =
        { g' with child := some { c with sigterm := false }, pipe := g'.pipe + 1 } := by
      simp [ServerRun.step, signalled, signalChild, running]
    have unread : ¬ (g'.exited = true ∨ g'.pipe + 1 = 0) := by simp [exited]
    rw [taken, ServerRun.step, if_neg unread]
  | _ => exact absurd aborts id

end Undisturbed

theorem initServer_undisturbed {config : ServerConfig} {disk : Disk}
    {nowMs nowRealtimeMs realtimeMs : Int} {io : BootIo} {h : Host}
    (boot : initServer config disk nowMs nowRealtimeMs realtimeMs io = some h) : Undisturbed h := by
  obtain ⟨db, disk', ino, lastSize, rfl, -⟩ := initServer_cases boot
  exact ⟨rfl, rfl, rfl, fun c hc => by simp [emptyHost] at hc, fun c hc => by simp [emptyHost] at hc⟩

/-- At every point of the run, whatever signals the child takes next and however often
the event loop looks at its pipe, it goes on. -/
def GoesOn (h : Host) (events : List Event) : Prop :=
  ∀ before, before <+: events → ∀ delivered : List Event,
    (∀ e ∈ delivered, e = .childSignal ∨ e = .shutdown) →
      (run h (before ++ delivered)).elStop = false

theorem undisturbed_run {h : Host} (inv : Undisturbed h) {events : List Event}
    (inside : ∀ e ∈ events, e ≠ .signal)
    (calm : Transition.Along step (fun g e => ¬ AbortsRunning g e) h events) :
    Undisturbed (run h events) := by
  induction events generalizing h with
  | nil => exact inv
  | cons e events ih =>
    exact ih (undisturbed_step inv (inside e List.mem_cons_self) calm.1)
      (fun f hf => inside f (List.mem_cons_of_mem _ hf)) calm.2

theorem along_delivered {delivered : List Event} (h : Host)
    (only : ∀ e ∈ delivered, e = .childSignal ∨ e = .shutdown) :
    Transition.Along step (fun g e => ¬ AbortsRunning g e) h delivered := by
  induction delivered generalizing h with
  | nil => trivial
  | cons e delivered ih =>
    refine ⟨?_, ih _ fun f hf => only f (List.mem_cons_of_mem _ hf)⟩
    rcases only e List.mem_cons_self with rfl | rfl <;> exact id

theorem undisturbed_goesOn {h : Host} (inv : Undisturbed h) {events : List Event}
    (inside : ∀ e ∈ events, e ≠ .signal) :
    GoesOn h events ↔ Transition.Along step (fun g e => ¬ AbortsRunning g e) h events := by
  constructor
  · intro goesOn
    induction events generalizing h with
    | nil => trivial
    | cons e events ih =>
      have calm : ¬ AbortsRunning h e := fun aborts => by
        have stopped := goesOn [e] ⟨events, rfl⟩ [.childSignal, .shutdown] (by simp)
        exact absurd (inv.aborted aborts) (by simp [← stopped])
      refine ⟨calm, ih (undisturbed_step inv (inside e List.mem_cons_self) calm)
        (fun f hf => inside f (List.mem_cons_of_mem _ hf)) fun before front delivered only => ?_⟩
      exact goesOn (e :: before) (List.cons_prefix_cons.mpr ⟨rfl, front⟩) delivered only
  · rintro calm before ⟨after, rfl⟩ delivered only
    refine (undisturbed_run inv (fun e he => ?_) (Transition.along_append.mpr
      ⟨(Transition.along_append.mp calm).1, along_delivered _ only⟩)).elStop
    rcases List.mem_append.mp he with he | he
    · exact inside e (List.mem_append_left _ he)
    · rcases only e he with rfl | rfl <;> simp

/-- Without signals from outside, the event loop goes on exactly as long as no rewrite
is aborted while its child is running. -/
theorem goesOn_iff {config : ServerConfig} {disk : Disk} {nowMs nowRealtimeMs realtimeMs : Int}
    {io : BootIo} {h : Host}
    (boot : initServer config disk nowMs nowRealtimeMs realtimeMs io = some h) (events : List Event)
    (inside : ∀ e ∈ events, e ≠ .signal) :
    GoesOn h events ↔ Transition.Along step (fun g e => ¬ AbortsRunning g e) h events :=
  undisturbed_goesOn (initServer_undisturbed boot) inside

theorem goesOn_iff_rewrite :
    GoesOn (firstHost {}) [.request (ascii "SET a 1") {}, .request (ascii "BGREWRITEAOF") {},
      .child 0 {}, .request (ascii "SET b 2") {}, .child 0 {}, .child 0 {}, .tick 1000 1000 {}] :=
  (goesOn_iff (firstHost_boot {}) _ (by simp)).mpr (by decide)

/-! A rewrite that is overtaken by writes. -/

/-- A request whose record takes all of `AOF_RECORD_MAX`. -/
def bigSet : Bytes := ascii "SET k " ++ List.replicate 4068 97

def bigRecord : Record := ⟨.set, ascii "k", List.replicate 4068 97, 0⟩

def bigBytes : Bytes := aofFrame (aofBody bigRecord)

theorem bigSet_asks (nowRealtimeMs : Int) :
    requestRecord nowRealtimeMs bigSet = some bigRecord := by
  have name : IsWord (ascii "SET") := by decide
  have key : IsWord (ascii "k") := by decide
  have tokens {v : Bytes} (value : IsWord v) :
      tokenizeCommand (cstr (ascii "SET k " ++ v)) maxTokens = [ascii "SET", ascii "k", v] := by
    have line : [32].intercalate [ascii "SET", ascii "k", v] = ascii "SET k " ++ v := by
      simp only [List.intercalate_cons_cons, List.intercalate_singleton]
      rfl
    rw [← line]
    exact tokenizeCommand_intercalate (by simp [name, key, value])
  exact set_asks nowRealtimeMs (tokens (isWord_replicate (by decide) (by decide) (by decide)))

theorem bigRecord_length : bigRecord.key.length + bigRecord.value.length = 4069 := by
  have key : (ascii "k").length = 1 := rfl
  rw [bigRecord, key, List.length_replicate]

theorem bigRecord_serialize : aofSerialize aofRecordMax bigRecord = some bigBytes :=
  aofSerialize_some bigRecord_length.le

theorem bigBytes_length : bigBytes.length = 4096 := by
  have len := bigRecord_length
  rw [bigBytes, aofFrame_length, aofBody_length]
  omega

structure Flooded (n : Nat) (h : Host) : Prop extends Undisturbed h where
  config : h.config = {}
  active : h.aofRewriteState = .active
  alive : h.child.any (·.phase.running) = true
  buf : h.aofRewriteBuf.isSome = true
  len : h.aofRewriteLen = n * 4096
  cap : h.aofRewriteCap ≤ 134217728

theorem aofEmitDiff_room {h : Host} {buf : Bytes} (config : h.config = {})
    (held : h.aofRewriteBuf.isSome = true) (cap : h.aofRewriteCap ≤ 134217728)
    (room : h.aofRewriteLen + buf.length ≤ 134217728) :
    let h' := aofEmitDiff h true buf
    h'.config = {} ∧ h'.aofRewriteState = h.aofRewriteState ∧ h'.child = h.child ∧
      h'.aofRewriteBuf.isSome = true ∧ h'.aofRewriteLen = h.aofRewriteLen + buf.length ∧
      h'.aofRewriteCap ≤ 134217728 := by
  obtain ⟨b, hb⟩ := Option.isSome_iff_exists.mp held
  have max : toU64 h.config.aofRewriteBufMaxSize = 134217728 := by
    rw [config]
    rfl
  simp only [aofEmitDiff, max, not_lt.mpr room, if_false, if_true]
  split
  · simp [copyDiff, growDiff, hb, config, grownCap_le]
  · simp [copyDiff, hb, config, cap]

theorem Flooded.makes {n : Nat} {h : Host} (flooded : Flooded n h) (io : RequestIo) :
    mutation h (.request bigSet io) = some bigRecord := by
  have short : bigSet.length ≤ msgMax := by
    have name : (ascii "SET k ").length = 6 := rfl
    rw [bigSet, List.length_append, List.length_replicate, name]
    decide
  exact mutation_iff.mpr ⟨⟨flooded.exited, short⟩, bigSet_asks _, rfl⟩

theorem Flooded.overflows_iff {n : Nat} {h : Host} (flooded : Flooded n h) :
    AbortsRunning h (.request bigSet {}) ↔ 134217728 < (n + 1) * 4096 := by
  have max : toU64 h.config.aofRewriteBufMaxSize = 134217728 := by
    rw [flooded.config]
    rfl
  have needed : h.aofRewriteLen + bigBytes.length = (n + 1) * 4096 := by
    rw [flooded.len, bigBytes_length]
    ring
  have on : h.config.aofEnabled = true := by rw [flooded.config]
  have cap := flooded.cap
  simp only [AbortsRunning, flooded.alive, flooded.makes, AbortsRewrite, on, flooded.active,
    bigRecord_serialize, Option.mem_def, Option.some.injEq, exists_eq_left', true_and, Overflows, max,
    needed]
  constructor
  · exact fun both => both.2.2.resolve_right (by simp)
  · exact fun large => ⟨writeAll_ok_iff.mpr (by simp [Completes, faultAfter]), by omega, Or.inl large⟩

theorem aofMaybeFsyncAlways_cap (h : Host) (flushed : Bool) :
    (aofMaybeFsyncAlways h flushed).1.aofRewriteCap = h.aofRewriteCap := by
  rcases aofMaybeFsyncAlways_cases h flushed with same | same <;> rw [same]

theorem aofAppend_of_active {io : AppendIo} {h : Host} {r : Record} {buf : Bytes}
    (on : h.config.aofEnabled = true) (active : h.aofRewriteState = .active)
    (fits : aofSerialize aofRecordMax r = some buf) (full : Completes io.writes buf.length) :
    aofAppend io h r = aofMaybeFsyncAlways
      { aofEmitDiff { h with
          disk := h.disk.append h.aofFd buf
          aofTotalWrites := h.aofTotalWrites + 1
          appended := h.appended ++ [r] } io.reallocated buf with aofBufDirty := true } io.flushed := by
  rw [aofAppend_of_completes on fits full]
  simp only [writtenWhole, aofAppendWritten, active, if_true]

theorem Flooded.request {n : Nat} {h : Host} (flooded : Flooded n h)
    (room : (n + 1) * 4096 ≤ 134217728) : Flooded (n + 1) (step h (.request bigSet {})) := by
  let stored : Host := { h with db := (replayDispatch h.db bigRecord.decoded).1 }
  have needed : h.aofRewriteLen + bigBytes.length = (n + 1) * 4096 := by
    rw [flooded.len, bigBytes_length]
    ring
  have calm : ¬ AbortsRunning h (.request bigSet {}) := by
    rw [flooded.overflows_iff]
    exact not_lt.mpr room
  have next := undisturbed_step flooded.toUndisturbed (by simp) calm
  have on : stored.config.aofEnabled = true := by
    change h.config.aofEnabled = true
    rw [flooded.config]
  have full : Completes ({} : AppendIo).writes bigBytes.length := by simp [Completes, faultAfter]
  have appended := aofAppend_of_active on flooded.active bigRecord_serialize full
  obtain ⟨config, state, child, buf, len, cap⟩ := aofEmitDiff_room (h := { stored with
    disk := stored.disk.append stored.aofFd bigBytes
    aofTotalWrites := stored.aofTotalWrites + 1
    appended := stored.appended ++ [bigRecord] }) flooded.config flooded.buf flooded.cap
    (needed.trans_le room)
  rw [step_mutated (flooded.makes {})] at next ⊢
  rw [show aofAppend ({} : RequestIo).append stored bigRecord = _ from appended] at next ⊢
  generalize aofEmitDiff _ true bigBytes = emitted at config state child buf len cap next ⊢
  let dirty : Host := { emitted with aofBufDirty := true }
  have same := (aofMaybeFsyncAlways_rewrite dirty true).1
  refine ⟨next, ?_, same.state.trans (state.trans flooded.active), ?_, ?_, ?_, ?_⟩
  · exact (aofMaybeFsyncAlways_frame dirty true).config.trans config
  · rw [same.child.trans child]
    exact flooded.alive
  · rw [same.buf]
    exact buf
  · exact same.len.trans (len.trans needed)
  · rw [aofMaybeFsyncAlways_cap]
    exact cap

theorem flooded_run {h : Host} (flooded : Flooded 0 h) (n : Nat) (room : n * 4096 ≤ 134217728) :
    Flooded n (run h (List.replicate n (.request bigSet {}))) := by
  induction n with
  | zero => exact flooded
  | succ n ih =>
    have before := ih ((Nat.mul_le_mul_right 4096 n.le_succ).trans room)
    rw [List.replicate_succ', run_concat]
    exact before.request room

/-- BGREWRITEAOF, and `n` writes before the child has made a step. -/
def flood (n : Nat) : List Event :=
  .request (ascii "BGREWRITEAOF") {} :: List.replicate n (.request bigSet {})

theorem flood_inside (n : Nat) : ∀ e ∈ flood n, e ≠ .signal := by
  rw [flood, List.forall_mem_cons]
  exact ⟨by simp, fun e he => by simp [List.eq_of_mem_replicate he]⟩

theorem flood_stops {n : Nat} (room : n * 4096 ≤ 134217728) (full : 134217728 < (n + 1) * 4096) :
    (run (firstHost {}) (flood (n + 1) ++ [.childSignal, .shutdown])).elStop = true := by
  have start : Flooded 0 (step (firstHost {}) (.request (ascii "BGREWRITEAOF") {})) :=
    ⟨undisturbed_step (initServer_undisturbed (firstHost_boot {})) (by simp) (by decide),
      by decide, by decide, by decide, by decide, by decide, by decide⟩
  have flooded := flooded_run start n room
  have stops := flooded.toUndisturbed.aborted (flooded.overflows_iff.mpr full)
  have split : flood (n + 1) ++ [.childSignal, .shutdown] =
      .request (ascii "BGREWRITEAOF") {} :: (List.replicate n (.request bigSet {}) ++
        [.request bigSet {}, .childSignal, .shutdown]) := by
    rw [flood, List.replicate_succ', List.cons_append, List.append_assoc]
    rfl
  rw [split, run, Transition.run_cons, Transition.run_append]
  exact stops

/-- The abort of the rewrite ends the event loop: the child gets its SIGTERM, and the
server shuts down. -/
theorem flood_not_goesOn :
    (∀ e ∈ flood 32769, e ≠ .signal) ∧ ¬ GoesOn (firstHost {}) (flood 32769) := by
  have stops (n : Nat) (room : n * 4096 ≤ 134217728) (full : 134217728 < (n + 1) * 4096) :
      ¬ GoesOn (firstHost {}) (flood (n + 1)) := fun goesOn => by
    have runs := goesOn _ List.prefix_rfl [.childSignal, .shutdown] (by simp)
    exact Bool.false_ne_true (runs.symm.trans (flood_stops room full))
  exact ⟨flood_inside _, stops 32768 (by decide) (by decide)⟩

end ByteKV.Shutdown
