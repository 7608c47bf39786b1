import ByteKV.Connection
import ByteKV.ServerRun

/-! Input in pieces. When the socket takes every response at once, what is executed
depends on the bytes received and not on the reads that brought them. -/
namespace ByteKV.Chunking
open Config ServerState Command Networking Framing
open ServerRun (firstHost)

def TakesAll (io : FrameIo) : Bool :=
  match io.send.write with
  | .wrote n => frameHdrSize + msgMax ≤ n
  | _ => false

/-- Reads bring bytes or find none yet, and writes take all they are given. -/
def Prompt : Event → Prop
  | .readable (.got bytes) ios => bytes ≠ [] ∧ ∀ io ∈ ios, TakesAll io = true
  | .readable .again _ => True
  | .readable .error _ => False
  | .writable _ _ => True
  | .elsewhere _ _ => True

def Offered (s : Conn) : Event → Prop
  | .readable (.got bytes) _ =>
      s.client.active = true → bytes.length ≤ msgMax + frameHdrSize - s.client.buf.length
  | _ => True

instance : (e : Event) → Decidable (Prompt e)
  | .readable (.got _) _ => inferInstanceAs (Decidable (_ ∧ _))
  | .readable .again _ => inferInstanceAs (Decidable True)
  | .readable .error _ => inferInstanceAs (Decidable False)
  | .writable _ _ => inferInstanceAs (Decidable True)
  | .elsewhere _ _ => inferInstanceAs (Decidable True)

instance (s : Conn) : (e : Event) → Decidable (Offered s e)
  | .readable (.got _) _ => inferInstanceAs (Decidable (_ → _))
  | .readable .again _ => inferInstanceAs (Decidable True)
  | .readable .error _ => inferInstanceAs (Decidable True)
  | .writable _ _ => inferInstanceAs (Decidable True)
  | .elsewhere _ _ => inferInstanceAs (Decidable True)

def eventBytes : Event → Bytes
  | .readable (.got bytes) _ => bytes
  | _ => []

def delivered (events : List Event) : Bytes := (events.map eventBytes).flatten

/-- `stream` cut into payloads, as far as its lengths are legal. -/
def cut (stream : Bytes) : Cut := greedy frameHdrSize msgMax stream

structure Idle (s : Conn) : Prop where
  active : s.client.active = true
  wbuf : s.client.wbuf = []
  woff : s.client.woff = 0
  readHandler : s.readHandler = some .onRead
  writeHandler : s.writeHandler = none

theorem queueWrite_idle {s : Conn} (idle : Idle s) {io : SendIo} {n : Nat}
    (write : io.write = .wrote n) {data : Bytes} (small : data.length ≤ frameHdrSize + msgMax)
    (all : frameHdrSize + msgMax ≤ n) :
    queueWrite io s data =
      ({ s with sent := s.sent ++ data, queued := s.queued ++ [(data, true)] }, true) := by
  have fits : ¬ 8200 < data.length := by
    simp only [frameHdrSize_eq, msgMax_eq] at small
    omega
  have taken : data.take n = data := List.take_of_length_le (small.trans all)
  obtain ⟨⟨⟨active, last, buf, wbuf, woff⟩, readHandler, writeHandler, received, sent, queued,
    handed⟩, host, clientsCount⟩ := s
  obtain rfl : wbuf = [] := idle.wbuf
  obtain rfl : woff = 0 := idle.woff
  simp [queueWrite, compact, fits, directWrite, write, advance, Client.unsent, taken, allSent,
    resetWbuf, noteQueued]

theorem answerFrame_idle {s : Conn} (idle : Idle s) {io : FrameIo} (all : TakesAll io = true)
    (payload : Bytes) :
    ∃ s' call, answerFrame io s payload = (s', true) ∧ Idle s' ∧ s'.client = s.client ∧
      s'.handed = s.handed ++ [call] ∧ call.payload = payload := by
  obtain ⟨n, write, all⟩ : ∃ n, io.send.write = .wrote n ∧ frameHdrSize + msgMax ≤ n := by
    rw [TakesAll] at all
    split at all
    · exact ⟨_, by assumption, of_decide_eq_true all⟩
    · simp at all
  have small : (frame frameHdrSize
      (commandExecute io.request s.host payload msgMax).2).length ≤ frameHdrSize + msgMax := by
    rw [frame_length]
    exact Nat.add_le_add_left (commandExecute_length io.request s.host payload msgMax) _
  have called : Idle (execute io.request s payload).1 :=
    ⟨idle.active, idle.wbuf, idle.woff, idle.readHandler, idle.writeHandler⟩
  have sent := queueWrite_idle called write small all
  exact ⟨_, _, sent, ⟨idle.active, idle.wbuf, idle.woff, idle.readHandler, idle.writeHandler⟩, rfl,
    rfl, rfl⟩

/-- After the loop: what was whole has been executed, and an illegal length has cost the
client its connection. -/
structure Consumed (c : Cut) (s s' : Conn) : Prop where
  executed : s'.handed.map Call.payload = s.handed.map Call.payload ++ c.payloads
  removed : c.oversized = true → Gone s'
  kept : c.oversized = false → Idle s' ∧ s'.client.buf = c.rest

theorem processLoop_consumed {rounds : Nat} {ios : List FrameIo} {s : Conn} (idle : Idle s)
    (all : ∀ io ∈ ios, TakesAll io = true) (enough : s.client.buf.length < rounds) :
    Consumed (cut s.client.buf) s (processLoop rounds ios s) := by
  induction rounds generalizing ios s with
  | zero => exact absurd enough (Nat.not_lt_zero _)
  | succ rounds ih =>
    have pos : 0 < frameHdrSize := by decide
    cases front frameHdrSize msgMax s.client.buf with
    | short eq few why =>
      rw [processLoop_short rounds ios why, cut, eq]
      exact ⟨(List.append_nil _).symm, fun h => by simp at h, fun _ => ⟨idle, rfl⟩⟩
    | oversized header big =>
      rw [processLoop_oversized rounds ios header big, cut, greedy_oversized header big]
      exact ⟨(List.append_nil _).symm, fun _ => ⟨rfl, rfl, rfl⟩, fun h => by simp at h⟩
    | whole header small there =>
      have all_head : TakesAll (ios.headD {}) = true := headD_of_forall (by decide) all
      obtain ⟨s', call, turn, idle', client, handed, asked⟩ := answerFrame_idle idle all_head
        ((s.client.buf.drop frameHdrSize).take
          (BigEndian.decode (s.client.buf.take frameHdrSize)))
      have loop := processLoop_turn rounds ios header rfl small there turn
      rw [if_pos rfl] at loop
      generalize eq : frameHdrSize + BigEndian.decode (s.client.buf.take frameHdrSize) = size
        at there loop
      have buf : (dropFrame size s').client.buf = s.client.buf.drop size := by
        rw [← client]
        rfl
      have dropped : Idle (dropFrame size s') :=
        ⟨idle'.active, idle'.wbuf, idle'.woff, idle'.readHandler, idle'.writeHandler⟩
      have less : (dropFrame size s').client.buf.length < rounds := by
        rw [buf, List.length_drop]
        omega
      have later := ih dropped (fun io hio => all io (List.mem_of_mem_tail hio)) less
      rw [buf] at later
      rw [loop, cut, greedy_whole pos header small (eq.trans_le there), eq]
      refine ⟨?_, later.removed, later.kept⟩
      rw [later.executed]
      change s'.handed.map Call.payload ++ _ = _
      rw [handed, List.map_append, List.append_assoc]
      simp [Cut.after, cut, asked]

structure Progress (stream : Bytes) (s : Conn) : Prop where
  executed : s.handed.map Call.payload = (cut stream).payloads
  removed : (cut stream).oversized = true → Gone s
  kept : (cut stream).oversized = false → Idle s ∧ s.client.buf = (cut stream).rest

theorem acceptedConn_progress (h : Host) (clientsCount : Nat) :
    Progress [] (acceptedConn h clientsCount) :=
  ⟨rfl, fun h => by simp [cut, greedy, greedyLoop] at h,
    fun _ => ⟨⟨rfl, rfl, rfl, rfl, rfl⟩, rfl⟩⟩

theorem Progress.gone {stream : Bytes} {s : Conn} (inv : Progress stream s)
    (ended : (cut stream).oversized = true) (e : Event) :
    Progress (stream ++ eventBytes e) (step s e) := by
  have pos : 0 < frameHdrSize := by decide
  obtain ⟨payloads, still⟩ := greedy_append_oversized pos ended (eventBytes e)
  have gone := inv.removed ended
  have untouched : (step s e).handed = s.handed := by
    cases e with
    | readable out ios => simp [step, gone.readHandler]
    | writable out ios => simp [step, gone.writeHandler]
    | elsewhere h clientsCount => rfl
  refine ⟨?_, fun _ => run_gone gone [e], fun h => ?_⟩
  · rw [untouched, inv.executed]
    exact payloads.symm
  · exact absurd (still.symm.trans h) (by decide)

theorem Progress.read {stream : Bytes} {s : Conn} (inv : Progress stream s)
    (goes : (cut stream).oversized = false) (bytes : Bytes) {ios : List FrameIo}
    (all : ∀ io ∈ ios, TakesAll io = true) :
    Progress (stream ++ bytes) (processBuffer ios (arrive bytes s)) := by
  have pos : 0 < frameHdrSize := by decide
  obtain ⟨idle, buf⟩ := inv.kept goes
  have arrived : Idle (arrive bytes s) :=
    ⟨idle.active, idle.wbuf, idle.woff, idle.readHandler, idle.writeHandler⟩
  have after : Consumed (cut (arrive bytes s).client.buf) (arrive bytes s)
      (processBuffer ios (arrive bytes s)) :=
    processLoop_consumed arrived all (Nat.lt_succ_self _)
  have input : (arrive bytes s).client.buf = (cut stream).rest ++ bytes := by
    rw [← buf]
    rfl
  have joined : cut (stream ++ bytes) =
      (cut ((cut stream).rest ++ bytes)).after (cut stream).payloads :=
    greedy_append pos msgMax stream bytes
  rw [input] at after
  refine ⟨?_, fun h => after.removed ?_, fun h => ?_⟩
  · rw [after.executed, joined]
    change s.handed.map Call.payload ++ _ = _
    rw [inv.executed]
    rfl
  · rw [joined] at h
    exact h
  · rw [joined] at h ⊢
    exact after.kept h

theorem step_progress {stream : Bytes} {s : Conn} {e : Event} (inv : Progress stream s)
    (prompt : Prompt e) (offered : Offered s e) :
    Progress (stream ++ eventBytes e) (step s e) := by
  cases ended : (cut stream).oversized with
  | true => exact inv.gone ended e
  | false =>
    obtain ⟨idle, buf⟩ := inv.kept ended
    have same (eq : step s e = s) (none : eventBytes e = []) :
        Progress (stream ++ eventBytes e) (step s e) := by
      rw [eq, none, List.append_nil]
      exact inv
    cases e with
    | elsewhere h clientsCount =>
      have none : eventBytes (.elsewhere h clientsCount) = [] := rfl
      rw [none, List.append_nil]
      exact ⟨inv.executed, fun h => absurd (ended.symm.trans h) (by decide), fun _ =>
        ⟨⟨idle.active, idle.wbuf, idle.woff, idle.readHandler, idle.writeHandler⟩, buf⟩⟩
    | writable out ios => exact same (by simp [step, idle.writeHandler]) rfl
    | readable out ios =>
      have alive : ¬ s.client.active = false := by simp [idle.active]
      cases out with
      | again => exact same (by simp [step, onRead, idle.readHandler, alive]) rfl
      | error => exact absurd prompt id
      | got bytes =>
        obtain ⟨some, all⟩ := prompt
        have taken : bytes.take (msgMax + frameHdrSize - s.client.buf.length) = bytes :=
          List.take_of_length_le (offered idle.active)
        have eq : step s (.readable (.got bytes) ios) = processBuffer ios (arrive bytes s) := by
          simp only [step, onRead, if_pos idle.readHandler, if_neg alive, taken, if_neg some]
        rw [eq, eventBytes]
        exact inv.read ended bytes all

structure Greedy (stream : Bytes) (s : Conn) : Prop where
  executed : s.handed.map Call.payload = (cut stream).payloads
  removed : s.client.active = false ↔ (cut stream).oversized = true
  room : s.client.active = true → s.client.buf.length < msgMax + frameHdrSize

theorem Progress.greedy {stream : Bytes} {s : Conn} (inv : Progress stream s) :
    Greedy stream s := by
  have pos : 0 < frameHdrSize := by decide
  refine ⟨inv.executed, ?_, fun alive => ?_⟩
  · cases ended : (cut stream).oversized with
    | true => exact iff_of_true (inv.removed ended).inactive rfl
    | false => simp [(inv.kept ended).1.active]
  · cases ended : (cut stream).oversized with
    | true => exact absurd ((inv.removed ended).inactive.symm.trans alive) (by decide)
    | false =>
      rw [(inv.kept ended).2, Nat.add_comm]
      exact (greedy_rest pos msgMax stream).2 ended

theorem run_greedy (h : Host) (clientsCount : Nat) {events : List Event}
    (prompt : ∀ e ∈ events, Prompt e)
    (offered : Transition.Along step Offered (acceptedConn h clientsCount) events) :
    Greedy (delivered events) (run (acceptedConn h clientsCount) events) := by
  suffices progress : ∀ (stream : Bytes) (s : Conn), Progress stream s →
      Transition.Along step Offered s events →
      Progress (stream ++ delivered events) (run s events) from
    (progress [] _ (acceptedConn_progress h clientsCount) offered).greedy
  clear offered
  induction events with
  | nil =>
    intro stream s inv _
    simpa [delivered, run] using inv
  | cons e events ih =>
    intro stream s inv offered
    have next := step_progress inv (prompt e List.mem_cons_self) offered.1
    have later := ih (fun f hf => prompt f (List.mem_cons_of_mem _ hf)) _ _ next offered.2
    rw [List.append_assoc] at later
    exact later

/-- Two ways to read the same bytes execute the same payloads, those of the greedy cut;
a client is removed at the first illegal length and only there, and every read has room
for a byte. -/
theorem reads_irrelevant (h h' : Host) (clientsCount clientsCount' : Nat)
    (events events' : List Event)
    (prompt : ∀ e ∈ events, Prompt e) (prompt' : ∀ e ∈ events', Prompt e)
    (offered : Transition.Along step Offered (acceptedConn h clientsCount) events)
    (offered' : Transition.Along step Offered (acceptedConn h' clientsCount') events')
    (same : delivered events = delivered events') :
    (run (acceptedConn h clientsCount) events).handed.map Call.payload =
        (run (acceptedConn h' clientsCount') events').handed.map Call.payload ∧
      Greedy (delivered events) (run (acceptedConn h clientsCount) events) ∧
      Greedy (delivered events) (run (acceptedConn h' clientsCount') events') := by
  have first := run_greedy h clientsCount prompt offered
  have second := run_greedy h' clientsCount' prompt' offered'
  rw [← same] at second
  exact ⟨first.executed.trans second.executed.symm, first, second⟩

def threeFrames : Bytes :=
  frame frameHdrSize (ascii "SET k v") ++ frame frameHdrSize (ascii "GET k") ++ [0, 1, 0, 0]

def oneRead : List Event := [.readable (.got threeFrames) []]

def threeReads : List Event :=
  [.readable (.got (threeFrames.take 3)) [], .readable (.got ((threeFrames.drop 3).take 9)) [],
    .readable (.got (threeFrames.drop 12)) []]

theorem reads_irrelevant_threeFrames :
    (run (acceptedConn (firstHost {}) 0) oneRead).handed.map Call.payload =
        (run (acceptedConn (firstHost {}) 0) threeReads).handed.map Call.payload ∧
      Greedy (delivered oneRead) (run (acceptedConn (firstHost {}) 0) oneRead) ∧
      Greedy (delivered oneRead) (run (acceptedConn (firstHost {}) 0) threeReads) :=
  reads_irrelevant (firstHost {}) (firstHost {}) 0 0 oneRead threeReads (by decide +kernel)
    (by decide +kernel) (by decide +kernel) (by decide +kernel) (by decide +kernel)

end ByteKV.Chunking
