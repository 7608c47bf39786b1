import ByteKV.ServerState

/-! The write path of aof.c, from `durable_flush` to `aof_append`. Every call that
can fail takes its outcome as an argument; the flags are false for -1. -/
namespace ByteKV.AofAppend
open Config Database FileIo AofRecord ServerState

/-- The three fsync modes differ in the call they make, not in its two outcomes. -/
def durableFlush (h : Host) (ino : Nat) (ok : Bool) : Host × Bool :=
  if ok then ({ h with disk := h.disk.flush ino, aofTotalFsyncs := h.aofTotalFsyncs + 1 }, true)
  else (h, false)

def aofEmitLive (h : Host) (writes : List WriteOutcome) (buf : Bytes) : Host × Bool :=
  match h.disk.writeAll h.aofFd writes buf with
  | (disk, false) => ({ h with disk := disk }, false)
  | (disk, true) => ({ h with disk := disk, aofTotalWrites := h.aofTotalWrites + 1 }, true)

/-- kill(pid, SIGTERM): the signal is pending until the child takes it. -/
def kill (pid : Option Nat) (c : Child) : Child :=
  if pid = some c.pid then { c with sigterm := true } else c

def aofAbortRewrite (h : Host) : Host :=
  { h with
    child := h.child.map (kill h.aofRewritePid)
    aofRewriteBuf := none
    aofRewriteLen := 0
    aofRewriteState := .aborting }

/-- The final memcpy of `aof_emit_diff`. -/
def copyDiff (h : Host) (buf : Bytes) : Host :=
  match h.aofRewriteBuf with
  | none => h
  | some b =>
      { h with
        aofRewriteBuf := some { b with data := b.data.take h.aofRewriteLen ++ buf }
        aofRewriteLen := h.aofRewriteLen + buf.length }

def grownCap (cap needed maxCap : Nat) : Nat :=
  let newCap := cap * 2
  let newCap := if newCap < needed then needed else newCap
  if newCap > maxCap then maxCap else newCap

theorem grownCap_le (cap needed maxCap : Nat) : grownCap cap needed maxCap ≤ maxCap := by
  simp only [grownCap]
  split <;> split <;> omega

theorem le_grownCap (cap : Nat) {needed maxCap : Nat} (fits : needed ≤ maxCap) :
    needed ≤ grownCap cap needed maxCap := by
  simp only [grownCap]
  split <;> split <;> omega

def growDiff (h : Host) (newCap : Nat) : Host :=
  { h with
    aofRewriteBuf := h.aofRewriteBuf.map fun b => { b with alloc := newCap }
    aofRewriteCap := newCap }

def aofEmitDiff (h : Host) (reallocated : Bool) (buf : Bytes) : Host :=
  let needed := h.aofRewriteLen + buf.length
  let maxCap := toU64 h.config.aofRewriteBufMaxSize
  if needed > h.aofRewriteCap then
    if needed > maxCap then aofAbortRewrite h
    else
      let newCap := grownCap h.aofRewriteCap needed maxCap
      if reallocated then copyDiff (growDiff h newCap) buf else aofAbortRewrite h
  else copyDiff h buf

def aofMaybeFsyncAlways (h : Host) (flushed : Bool) : Host × Bool :=
  if h.config.aofPolicy ≠ .always then (h, true)
  else match durableFlush h h.aofFd flushed with
    | (h, false) => (h, false)
    | (h, true) => ({ h with aofBufDirty := false }, true)

structure AppendIo where
  writes : List WriteOutcome := []
  reallocated : Bool := true
  flushed : Bool := true

/-- `aof_append` between the write of the record and the fsync. -/
def aofAppendWritten (io : AppendIo) (h : Host) (r : Record) (buf : Bytes) : Host :=
  let h := { h with appended := h.appended ++ [r] }
  let h := if h.aofRewriteState = .active then aofEmitDiff h io.reallocated buf else h
  { h with aofBufDirty := true }

def aofAppend (io : AppendIo) (h : Host) (r : Record) : Host × Bool :=
  if h.config.aofEnabled = false then (h, true)
  else match aofSerialize aofRecordMax r with
    | none => (h, false)
    | some buf =>
        match aofEmitLive h io.writes buf with
        | (h, false) => (h, false)
        | (h, true) => aofMaybeFsyncAlways (aofAppendWritten io h r buf) io.flushed

structure SameChild (c c' : Child) : Prop where
  db : c'.db = c.db
  mark : c'.mark = c.mark
  clocks : c'.clocks = c.clocks
  phase : c'.phase = c.phase ∨ c'.phase = .killed

theorem SameChild.refl (c : Child) : SameChild c c := ⟨rfl, rfl, rfl, Or.inl rfl⟩

theorem kill_same (pid : Option Nat) (c : Child) : SameChild c (kill pid c) := by
  unfold kill
  split <;> exact ⟨rfl, rfl, rfl, Or.inl rfl⟩

/-! What an append leaves alone, and what it does to the log and the diff buffer. -/

structure Frame (h h' : Host) : Prop where
  config : h'.config = h.config
  db : h'.db = h.db
  nowMs : h'.nowMs = h.nowMs
  nowRealtimeMs : h'.nowRealtimeMs = h.nowRealtimeMs
  aofFd : h'.aofFd = h.aofFd
  aofRewritePid : h'.aofRewritePid = h.aofRewritePid
  aofRewritesCompleted : h'.aofRewritesCompleted = h.aofRewritesCompleted
  exited : h'.exited = h.exited
  disk : Disk.SameBut h.aofFd h.disk h'.disk

theorem Frame.refl (h : Host) : Frame h h :=
  ⟨rfl, rfl, rfl, rfl, rfl, rfl, rfl, rfl, .refl _ _⟩

theorem Frame.trans {h h' h'' : Host} (a : Frame h h') (b : Frame h' h'') : Frame h h'' :=
  ⟨b.config.trans a.config, b.db.trans a.db, b.nowMs.trans a.nowMs,
    b.nowRealtimeMs.trans a.nowRealtimeMs, b.aofFd.trans a.aofFd,
    b.aofRewritePid.trans a.aofRewritePid, b.aofRewritesCompleted.trans a.aofRewritesCompleted,
    b.exited.trans a.exited, a.disk.trans (a.aofFd ▸ b.disk)⟩

structure RewriteSame (h h' : Host) : Prop where
  state : h'.aofRewriteState = h.aofRewriteState
  child : h'.child = h.child
  buf : h'.aofRewriteBuf = h.aofRewriteBuf
  len : h'.aofRewriteLen = h.aofRewriteLen

theorem RewriteSame.refl (h : Host) : RewriteSame h h := ⟨rfl, rfl, rfl, rfl⟩

theorem RewriteSame.trans {h h' h'' : Host} (a : RewriteSame h h') (b : RewriteSame h' h'') :
    RewriteSame h h'' :=
  ⟨b.state.trans a.state, b.child.trans a.child, b.buf.trans a.buf, b.len.trans a.len⟩

theorem RewriteSame.diff {h h' : Host} (same : RewriteSame h h') : h'.diff = h.diff := by
  rw [Host.diff, Host.diff, same.buf, same.len]

/-- While a rewrite is active, the buffer holds `aof_rewrite_len` bytes. -/
def BufOk (h : Host) : Prop :=
  h.aofRewriteState = .active → ∃ b, h.aofRewriteBuf = some b ∧ b.data.length = h.aofRewriteLen

/-- A record of an active rewrite goes into the diff, or the rewrite is aborted. -/
inductive Diffed (buf : Bytes) (h h' : Host) : Prop
  | copied (state : h'.aofRewriteState = .active) (child : h'.child = h.child)
      (diff : BufOk h → BufOk h' ∧ h'.diff = h.diff ++ buf)
  | aborted (state : h'.aofRewriteState = .aborting)
      (child : h'.child = h.child.map (kill h.aofRewritePid))

theorem copyDiff_diff {h : Host} (buf : Bytes) (active : h.aofRewriteState = .active)
    (ok : BufOk h) : BufOk (copyDiff h buf) ∧ (copyDiff h buf).diff = h.diff ++ buf := by
  obtain ⟨b, hb, len⟩ := ok active
  have eq : copyDiff h buf = { h with
      aofRewriteBuf := some { b with data := b.data.take h.aofRewriteLen ++ buf }
      aofRewriteLen := h.aofRewriteLen + buf.length } := by simp [copyDiff, hb]
  rw [eq]
  refine ⟨fun _ => ⟨_, rfl, by simp [len]⟩, ?_⟩
  simp [Host.diff, hb, ← len, List.take_of_length_le]

theorem growDiff_diff {h : Host} (newCap : Nat) (active : h.aofRewriteState = .active)
    (ok : BufOk h) : BufOk (growDiff h newCap) ∧ (growDiff h newCap).diff = h.diff := by
  obtain ⟨b, hb, len⟩ := ok active
  exact ⟨fun _ => ⟨{ b with alloc := newCap }, by simp [growDiff, hb], len⟩,
    by simp [Host.diff, growDiff, hb]⟩

theorem copyDiff_state (h : Host) (buf : Bytes) :
    (copyDiff h buf).aofRewriteState = h.aofRewriteState ∧ (copyDiff h buf).child = h.child := by
  cases hb : h.aofRewriteBuf <;> simp [copyDiff, hb]

theorem copyDiff_frame (h : Host) (buf : Bytes) : Frame h (copyDiff h buf) := by
  unfold copyDiff
  split
  · exact .refl h
  · exact ⟨rfl, rfl, rfl, rfl, rfl, rfl, rfl, rfl, .refl _ _⟩

theorem aofEmitDiff_diffed (h : Host) (reallocated : Bool) (buf : Bytes)
    (active : h.aofRewriteState = .active) : Diffed buf h (aofEmitDiff h reallocated buf) := by
  have abort : Diffed buf h (aofAbortRewrite h) := .aborted rfl rfl
  simp only [aofEmitDiff]
  split
  · split
    · exact abort
    · split
      · refine .copied ((copyDiff_state _ _).1.trans active) (copyDiff_state _ _).2 fun ok => ?_
        obtain ⟨ok', same⟩ := growDiff_diff _ active ok
        rw [← same]
        exact copyDiff_diff buf active ok'
      · exact abort
  · exact .copied ((copyDiff_state _ _).1.trans active) (copyDiff_state _ _).2
      (copyDiff_diff buf active)

theorem aofEmitDiff_frame (h : Host) (reallocated : Bool) (buf : Bytes) :
    Frame h (aofEmitDiff h reallocated buf) := by
  have abort : Frame h (aofAbortRewrite h) := ⟨rfl, rfl, rfl, rfl, rfl, rfl, rfl, rfl, .refl _ _⟩
  simp only [aofEmitDiff]
  split
  · split
    · exact abort
    · split
      · have grown (newCap : Nat) : Frame h (growDiff h newCap) :=
          ⟨rfl, rfl, rfl, rfl, rfl, rfl, rfl, rfl, .refl _ _⟩
        exact (grown _).trans (copyDiff_frame _ buf)
      · exact abort
  · exact copyDiff_frame h buf

theorem aofEmitDiff_disk (h : Host) (reallocated : Bool) (buf : Bytes) :
    (aofEmitDiff h reallocated buf).disk = h.disk ∧
      (aofEmitDiff h reallocated buf).appended = h.appended := by
  have copied (g : Host) : (copyDiff g buf).disk = g.disk ∧
      (copyDiff g buf).appended = g.appended := by
    cases hb : g.aofRewriteBuf <;> simp [copyDiff, hb]
  simp only [aofEmitDiff]
  split
  · split
    · exact ⟨rfl, rfl⟩
    · split
      · exact copied (growDiff h _)
      · exact ⟨rfl, rfl⟩
  · exact copied h

theorem aofMaybeFsyncAlways_cases (h : Host) (flushed : Bool) :
    (aofMaybeFsyncAlways h flushed).1 = h ∨ (aofMaybeFsyncAlways h flushed).1 = { h with
      disk := h.disk.flush h.aofFd
      aofTotalFsyncs := h.aofTotalFsyncs + 1
      aofBufDirty := false } := by
  unfold aofMaybeFsyncAlways durableFlush
  split
  · exact Or.inl rfl
  · cases flushed with
    | false => exact Or.inl rfl
    | true => exact Or.inr rfl

theorem aofMaybeFsyncAlways_frame (h : Host) (flushed : Bool) :
    Frame h (aofMaybeFsyncAlways h flushed).1 := by
  rcases aofMaybeFsyncAlways_cases h flushed with same | same <;> rw [same]
  · exact .refl h
  · exact ⟨rfl, rfl, rfl, rfl, rfl, rfl, rfl, rfl, Disk.flush_sameBut _ _⟩

theorem aofMaybeFsyncAlways_rewrite (h : Host) (flushed : Bool) :
    RewriteSame h (aofMaybeFsyncAlways h flushed).1 ∧
      (aofMaybeFsyncAlways h flushed).1.appended = h.appended := by
  rcases aofMaybeFsyncAlways_cases h flushed with same | same <;> rw [same]
  · exact ⟨.refl h, rfl⟩
  · exact ⟨⟨rfl, rfl, rfl, rfl⟩, rfl⟩

theorem aofMaybeFsyncAlways_disk (h : Host) (flushed : Bool) :
    (aofMaybeFsyncAlways h flushed).1.disk =
      if h.config.aofPolicy = .always ∧ flushed = true then h.disk.flush h.aofFd else h.disk := by
  unfold aofMaybeFsyncAlways durableFlush
  by_cases policy : h.config.aofPolicy = .always <;> cases flushed <;> simp [policy]

theorem aofAppendWritten_spec (io : AppendIo) (h : Host) (r : Record) (buf : Bytes) :
    Frame h (aofAppendWritten io h r buf) ∧
      (aofAppendWritten io h r buf).disk = h.disk ∧
      (aofAppendWritten io h r buf).appended = h.appended ++ [r] ∧
      (h.aofRewriteState ≠ .active → RewriteSame h (aofAppendWritten io h r buf)) ∧
      (h.aofRewriteState = .active → Diffed buf h (aofAppendWritten io h r buf)) := by
  let logged : Host := { h with appended := h.appended ++ [r] }
  have frame : Frame h logged := ⟨rfl, rfl, rfl, rfl, rfl, rfl, rfl, rfl, .refl _ _⟩
  by_cases active : h.aofRewriteState = .active
  · have eq : aofAppendWritten io h r buf =
        { aofEmitDiff logged io.reallocated buf with aofBufDirty := true } := by
      simp only [aofAppendWritten, active, if_true, logged]
    have kept := aofEmitDiff_disk logged io.reallocated buf
    rw [eq]
    refine ⟨frame.trans ?_, kept.1, kept.2, fun idle => absurd active idle, fun _ => ?_⟩
    · obtain ⟨h1, h2, h3, h4, h5, h6, h7, h8, h9⟩ := aofEmitDiff_frame logged io.reallocated buf
      exact ⟨h1, h2, h3, h4, h5, h6, h7, h8, h9⟩
    · cases aofEmitDiff_diffed logged io.reallocated buf active with
      | copied state child diff => exact .copied state child diff
      | aborted state child => exact .aborted state child
  · have eq : aofAppendWritten io h r buf = { logged with aofBufDirty := true } := by
      simp only [aofAppendWritten, active, if_false, logged]
    rw [eq]
    exact ⟨frame.trans ⟨rfl, rfl, rfl, rfl, rfl, rfl, rfl, rfl, .refl _ _⟩, rfl, rfl,
      fun _ => ⟨rfl, rfl, rfl, rfl⟩, fun now => absurd now active⟩

section Append
variable {io : AppendIo} {h : Host} {r : Record} {buf : Bytes}

theorem aofAppend_unlogged
    (off : h.config.aofEnabled = false ∨ aofSerialize aofRecordMax r = none) :
    (aofAppend io h r).1 = h := by
  rw [aofAppend]
  split
  · rfl
  · rename_i on
    rw [off.resolve_left on]

theorem aofAppend_fault {k : Nat} (on : h.config.aofEnabled = true)
    (fits : aofSerialize aofRecordMax r = some buf) (fault : faultAfter io.writes = some k)
    (short : k < buf.length) :
    aofAppend io h r = ({ h with disk := h.disk.append h.aofFd (buf.take k) }, false) := by
  rw [aofAppend, if_neg (by simp [on]), fits]
  simp [aofEmitLive, Disk.writeAll, writeAll_of_fault fault short]

def writtenWhole (io : AppendIo) (h : Host) (r : Record) (buf : Bytes) : Host :=
  aofAppendWritten io
    { h with disk := h.disk.append h.aofFd buf, aofTotalWrites := h.aofTotalWrites + 1 } r buf

theorem aofAppend_of_completes (on : h.config.aofEnabled = true)
    (fits : aofSerialize aofRecordMax r = some buf) (full : Completes io.writes buf.length) :
    aofAppend io h r = aofMaybeFsyncAlways (writtenWhole io h r buf) io.flushed := by
  rw [aofAppend, if_neg (by simp [on]), fits]
  simp [aofEmitLive, Disk.writeAll, writeAll_of_completes full, writtenWhole]

theorem writtenWhole_spec (io : AppendIo) (h : Host) (r : Record) (buf : Bytes) :
    Frame h (writtenWhole io h r buf) ∧
      (writtenWhole io h r buf).disk = h.disk.append h.aofFd buf ∧
      (writtenWhole io h r buf).appended = h.appended ++ [r] ∧
      (h.aofRewriteState ≠ .active → RewriteSame h (writtenWhole io h r buf)) ∧
      (h.aofRewriteState = .active → Diffed buf h (writtenWhole io h r buf)) := by
  let emitted : Host :=
    { h with disk := h.disk.append h.aofFd buf, aofTotalWrites := h.aofTotalWrites + 1 }
  have first : Frame h emitted :=
    ⟨rfl, rfl, rfl, rfl, rfl, rfl, rfl, rfl, Disk.append_sameBut _ _ _⟩
  obtain ⟨frame, disk, appended, inactive, active⟩ := aofAppendWritten_spec io emitted r buf
  refine ⟨first.trans frame, disk, appended, fun idle => ?_, fun now => ?_⟩
  · obtain ⟨h1, h2, h3, h4⟩ := inactive idle
    exact ⟨h1, h2, h3, h4⟩
  · cases active now with
    | copied state child diff => exact .copied state child diff
    | aborted state child => exact .aborted state child

theorem aofAppend_live (on : h.config.aofEnabled = true)
    (fits : aofSerialize aofRecordMax r = some buf) (full : Completes io.writes buf.length) :
    (aofAppend io h r).1.live = h.live ++ buf := by
  have frame := (writtenWhole_spec io h r buf).1
  have fsync := aofMaybeFsyncAlways_frame (writtenWhole io h r buf) io.flushed
  rw [aofAppend_of_completes on fits full, Host.live, (frame.trans fsync).aofFd,
    aofMaybeFsyncAlways_disk, (writtenWhole_spec io h r buf).2.1]
  split <;> simp [Host.live, frame.aofFd]

inductive Attempt (io : AppendIo) (h : Host) (r : Record) : Host → Prop
  | unlogged (off : h.config.aofEnabled = false ∨ aofSerialize aofRecordMax r = none) :
      Attempt io h r h
  | torn (buf : Bytes) (k : Nat) (on : h.config.aofEnabled = true)
      (fits : aofSerialize aofRecordMax r = some buf) (fault : faultAfter io.writes = some k)
      (short : k < buf.length) :
      Attempt io h r { h with disk := h.disk.append h.aofFd (buf.take k) }
  | whole (buf : Bytes) (on : h.config.aofEnabled = true)
      (fits : aofSerialize aofRecordMax r = some buf) (full : Completes io.writes buf.length) :
      Attempt io h r (aofMaybeFsyncAlways (writtenWhole io h r buf) io.flushed).1

theorem aofAppend_attempt (io : AppendIo) (h : Host) (r : Record) :
    Attempt io h r (aofAppend io h r).1 := by
  by_cases off : h.config.aofEnabled = false ∨ aofSerialize aofRecordMax r = none
  · rw [aofAppend_unlogged off]
    exact .unlogged off
  · rw [not_or, Bool.not_eq_false, ← ne_eq, Option.ne_none_iff_exists'] at off
    obtain ⟨on, buf, fits⟩ := off
    by_cases full : Completes io.writes buf.length
    · rw [aofAppend_of_completes on fits full]
      exact .whole buf on fits full
    · simp only [Completes, not_forall, not_le] at full
      obtain ⟨k, fault, short⟩ := full
      rw [aofAppend_fault on fits fault short]
      exact .torn buf k on fits fault short

end Append

inductive Appended (io : AppendIo) (r : Record) (h h' : Host) : Prop
  | unlogged (off : h.config.aofEnabled = false ∨ aofSerialize aofRecordMax r = none)
      (same : h' = h)
  | torn (buf : Bytes) (k : Nat) (fault : faultAfter io.writes = some k) (short : k < buf.length)
      (fits : aofSerialize aofRecordMax r = some buf)
      (eq : h' = { h with disk := h.disk.append h.aofFd (buf.take k) })
  | whole (buf : Bytes) (fits : aofSerialize aofRecordMax r = some buf)
      (live : h'.live = h.live ++ buf) (appended : h'.appended = h.appended ++ [r])
      (inactive : h.aofRewriteState ≠ .active → RewriteSame h h')
      (active : h.aofRewriteState = .active → Diffed buf h h')

theorem Appended.child {io : AppendIo} {r : Record} {h h' : Host} (appended : Appended io r h h')
    {c' : Child} (hc' : h'.child = some c') : ∃ c, h.child = some c ∧ SameChild c c' := by
  cases appended with
  | unlogged off same => exact ⟨c', same ▸ hc', .refl c'⟩
  | torn buf k fault short fits eq =>
    rw [eq] at hc'
    exact ⟨c', hc', .refl c'⟩
  | whole buf fits live grown inactive active =>
    by_cases now : h.aofRewriteState = .active
    · cases active now with
      | copied state child diff => exact ⟨c', child ▸ hc', .refl c'⟩
      | aborted state child =>
        obtain ⟨c, hc, rfl⟩ := Option.map_eq_some_iff.mp (child ▸ hc')
        exact ⟨c, hc, kill_same _ c⟩
    · exact ⟨c', (inactive now).child ▸ hc', .refl c'⟩

theorem aofAppend_frame (io : AppendIo) (h : Host) (r : Record) :
    Frame h (aofAppend io h r).1 ∧ Appended io r h (aofAppend io h r).1 := by
  have attempt := aofAppend_attempt io h r
  have live (buf : Bytes) := @aofAppend_live io h r buf
  generalize (aofAppend io h r).1 = h' at attempt live ⊢
  cases attempt with
  | unlogged off => exact ⟨.refl h, .unlogged off rfl⟩
  | torn buf k on fits fault short =>
    exact ⟨⟨rfl, rfl, rfl, rfl, rfl, rfl, rfl, rfl, Disk.append_sameBut _ _ _⟩,
      .torn buf k fault short fits rfl⟩
  | whole buf on fits full =>
    obtain ⟨frame, disk, appended, inactive, active⟩ := writtenWhole_spec io h r buf
    have fsync := aofMaybeFsyncAlways_frame (writtenWhole io h r buf) io.flushed
    obtain ⟨same, kept⟩ := aofMaybeFsyncAlways_rewrite (writtenWhole io h r buf) io.flushed
    refine ⟨frame.trans fsync, .whole buf fits (live buf on fits full) (kept.trans appended)
      (fun idle => (inactive idle).trans same) fun now => ?_⟩
    cases active now with
    | copied state child diff =>
      refine .copied (same.state.trans state) (same.child.trans child) fun ok => ?_
      obtain ⟨ok', diff⟩ := diff ok
      refine ⟨fun now => ?_, same.diff.trans diff⟩
      rw [same.buf, same.len]
      exact ok' (same.state ▸ now)
    | aborted state child =>
      exact .aborted (same.state.trans state) (same.child.trans child)

end ByteKV.AofAppend
