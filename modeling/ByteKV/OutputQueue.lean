import ByteKV.Connection

/-! The output side as a queue: `queue_write` called at any time, between any events of
the connection. -/
namespace ByteKV.OutputQueue
open Config ServerState Networking

inductive OutEvent
  | queue (data : Bytes) (io : SendIo)
  | event (e : Event)

def outStep (s : Conn) : OutEvent → Conn
  | .queue data io => if s.client.active then (queueWrite io s data).1 else s
  | .event e => step s e

def outRun (s : Conn) (events : List OutEvent) : Conn := Transition.run outStep s events

/-- The stream is the data of the calls that returned true, in order. -/
structure Fifo (s : Conn) : Prop where
  bounded : s.Bounded
  output : s.client.active = true → s.output = acceptedData s.queued

theorem Fifo.moved {s s' : Conn} {calls : List Call} {sends : List (Bytes × Bool)} (h : Fifo s)
    (m : Moved s s' calls sends) : Fifo s' where
  bounded := m.bounded
  output alive := by
    rw [m.output, m.queued, acceptedData_append, h.output (m.active ▸ alive)]

theorem Fifo.removed (s : Conn) : Fifo (removeClient s) :=
  ⟨Nat.le_refl 0, fun alive => by simp [removeClient] at alive⟩

theorem fifo_kept : Kept Fifo where
  bounded h := h.bounded
  moved h _ m := h.moved m
  dropped _ h := ⟨h.bounded, h.output⟩
  removed _ := .removed _
  arrived _ h := ⟨h.bounded, h.output⟩
  elsewhere _ _ h := ⟨h.bounded, h.output⟩

theorem Fifo.queueWrite {s : Conn} (h : Fifo s) (io : SendIo) (data : Bytes) :
    Fifo (queueWrite io s data).1 := by
  have out := queueWrite_cases io h.bounded data
  generalize Networking.queueWrite io s data = result at out ⊢
  cases out with
  | queued s' room moved => exact h.moved moved
  | full s' short moved => exact h.moved moved
  | dropped s' room failed moved => exact .removed s'

theorem outRun_fifo (h : Host) (clientsCount : Nat) (events : List OutEvent) :
    Fifo (outRun (acceptedConn h clientsCount) events) := by
  have keep (s : Conn) (e : OutEvent) (fifo : Fifo s) : Fifo (outStep s e) := by
    cases e with
    | queue data io =>
      rw [outStep]
      split
      · exact fifo.queueWrite io data
      · exact fifo
    | event e => exact fifo_kept.step fifo e
  have start : Fifo (acceptedConn h clientsCount) := ⟨Nat.le_refl 0, fun _ => rfl⟩
  exact Transition.run_invariant_always keep start events

/-- What holds of a state and of the next call made in it. A call is noted in `queued`
with its result. -/
structure Lossless (s : Conn) : Prop where
  fifo : s.client.active = true → s.sent ++ s.client.unsent = acceptedData s.queued
  noted : ∀ io data,
    (queueWrite io s data).1.queued = s.queued ++ [(data, (queueWrite io s data).2)]
  refused : ∀ io data, (queueWrite io s data).2 = false →
    (queueWrite io s data).1.client.active = true → (queueWrite io s data).1.output = s.output
  roomy : ∀ io data, s.client.unsent = [] → data.length ≤ frameHdrSize + msgMax →
    (queueWrite io s data).2 = false → io.write = .error

/-- In any run, whatever the socket takes and whenever, nothing queued is lost, doubled
or put out of order until the client is removed. -/
theorem outRun_lossless (h : Host) (clientsCount : Nat) (events : List OutEvent) :
    Lossless (outRun (acceptedConn h clientsCount) events) := by
  have fifo := outRun_fifo h clientsCount events
  generalize outRun (acceptedConn h clientsCount) events = s at fifo
  refine ⟨fifo.output, fun io data => ?_, fun io data => ?_, fun io data => ?_⟩
  · have out := queueWrite_cases io fifo.bounded data
    generalize queueWrite io s data = result at out ⊢
    cases out with
    | queued s' room moved => exact moved.queued
    | full s' short moved => exact moved.queued
    | dropped s' room failed moved => exact moved.queued
  · have out := queueWrite_cases io fifo.bounded data
    generalize queueWrite io s data = result at out ⊢
    cases out with
    | queued s' room moved => simp
    | full s' short moved =>
      intro _ _
      rw [moved.output]
      exact List.append_nil _
    | dropped s' room failed moved =>
      intro _ alive
      simp [removeClient] at alive
  · have out := queueWrite_cases io fifo.bounded data
    generalize queueWrite io s data = result at out ⊢
    intro empty size
    cases out with
    | queued s' room moved => simp
    | full s' short moved =>
      simp only [empty, List.length_nil, wbufSize_eq, frameHdrSize_eq, msgMax_eq] at short size
      omega
    | dropped s' room failed moved => exact fun _ => failed

end ByteKV.OutputQueue
