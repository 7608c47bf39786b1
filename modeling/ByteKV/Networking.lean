import ByteKV.Command
import ByteKV.Framing
import ByteKV.Transition

/-! networking.c, one connection at a time: the read side that cuts the input into
frames, and the write side with its bounded buffer. What the socket and kevent do
is scripted; where a script has run out the call succeeds in full. -/
namespace ByteKV.Networking
open Config ServerState Command Framing

/-- `client_t`. `buf` holds the `len` bytes read so far and `wbuf` the `wlen` bytes
queued, of which `woff` are sent. -/
structure Client where
  active : Bool := false
  lastActiveMs : Int := 0
  buf : Bytes := []
  wbuf : Bytes := []
  woff : Nat := 0
  deriving DecidableEq, Repr

def Client.unsent (c : Client) : Bytes := c.wbuf.drop c.woff

/-- A call of `command_execute`, and how many bytes were unsent at that moment. -/
structure Call where
  payload : Bytes
  response : Bytes
  pending : Nat
  deriving DecidableEq, Repr

inductive Handler
  | onAccept
  | onShutdown
  | onRead
  | onWrite
  deriving DecidableEq, Repr

/-- What one descriptor number owns: its slot of `server.clients` and its two handlers.
The last four fields are a history of the connection that no handler reads: `queued`
has the calls of `queue_write` and their results. -/
structure Slot where
  client : Client := {}
  readHandler : Option Handler := none
  writeHandler : Option Handler := none
  received : Bytes := []
  sent : Bytes := []
  queued : List (Bytes × Bool) := []
  handed : List Call := []
  deriving DecidableEq, Repr

/-- What the handlers of one descriptor work on: its slot, and the rest of the server. -/
structure Conn extends Slot where
  host : Host
  clientsCount : Nat

/-- The connection as an `on_accept` whose calls all succeed leaves it. -/
def acceptedConn (h : Host) (clientsCount : Nat) : Conn where
  client := { active := true, lastActiveMs := h.nowMs }
  readHandler := some .onRead
  host := h
  clientsCount := clientsCount + 1

/-- read(2): the bytes there are, as many as were asked for. None is the end of the
stream, or a call that asked for none. -/
inductive ReadOutcome
  | got (available : Bytes)
  | again
  | error
  deriving DecidableEq, Repr

/-- write(2) on a socket; `again` is EAGAIN, EWOULDBLOCK and EINTR. -/
inductive SendOutcome
  | wrote (n : Nat)
  | again
  | error
  deriving DecidableEq, Repr

structure SendIo where
  write : SendOutcome := .wrote wbufSize
  registered : Bool := true

structure FrameIo where
  request : RequestIo := {}
  send : SendIo := {}

def elRemove (s : Conn) : Conn := { s with readHandler := none, writeHandler := none }

def elAddWrite (registered : Bool) (s : Conn) : Conn :=
  if registered then { s with writeHandler := some .onWrite } else s

def elRemoveWrite (s : Conn) : Conn := { s with writeHandler := none }

def removeClient (s : Conn) : Conn :=
  { elRemove s with client := {}, clientsCount := s.clientsCount - 1 }

def advance (n : Nat) (s : Conn) : Conn :=
  let taken := s.client.unsent.take n
  { s with
    client := { s.client with woff := s.client.woff + taken.length }
    sent := s.sent ++ taken }

def resetWbuf (s : Conn) : Conn := { s with client := { s.client with wbuf := [], woff := 0 } }

def allSent (s : Conn) : Bool := s.client.woff = s.client.wbuf.length

/-- The first lines of `queue_write`: the sent part makes room when room is short. -/
def compact (len : Nat) (s : Conn) : Conn :=
  if wbufSize < s.client.wbuf.length + len ∧ 0 < s.client.woff then
    { s with client := { s.client with wbuf := s.client.unsent, woff := 0 } }
  else s

/-- The fast path of `queue_write`. -/
def directWrite (io : SendIo) (s : Conn) : Conn × Bool :=
  match io.write with
  | .error => (removeClient s, false)
  | .again => (elAddWrite io.registered s, true)
  | .wrote n =>
      let s := advance n s
      if allSent s then (resetWbuf s, true) else (elAddWrite io.registered s, true)

def noteQueued (data : Bytes) : Conn × Bool → Conn × Bool
  | (s, ok) => ({ s with queued := s.queued ++ [(data, ok)] }, ok)

def queueWrite (io : SendIo) (s : Conn) (data : Bytes) : Conn × Bool :=
  let s := compact data.length s
  noteQueued data <|
    if wbufSize < s.client.wbuf.length + data.length then (s, false)
    else
      let queued := { s with client := { s.client with wbuf := s.client.wbuf ++ data } }
      if s.client.wbuf = [] then directWrite io queued
      else (elAddWrite io.registered queued, true)

def sendFramed (io : SendIo) (s : Conn) (payload : Bytes) : Conn × Bool :=
  queueWrite io s (frame frameHdrSize payload)

def execute (io : RequestIo) (s : Conn) (payload : Bytes) : Conn × Bytes :=
  let (h, response) := commandExecute io s.host payload msgMax
  ({ s with
      host := h
      handed := s.handed ++ [⟨payload, response, s.client.unsent.length⟩] }, response)

/-- The turn of one frame: its command, then `send_framed` with the response. -/
def answerFrame (io : FrameIo) (s : Conn) (payload : Bytes) : Conn × Bool :=
  let (s, response) := execute io.request s payload
  sendFramed io.send s response

def dropFrame (size : Nat) (s : Conn) : Conn :=
  { s with client := { s.client with buf := s.client.buf.drop size } }

def processLoop : (rounds : Nat) → List FrameIo → Conn → Conn
  | 0, _, s => s
  | rounds + 1, ios, s =>
      let payloadLen := BigEndian.decode (s.client.buf.take frameHdrSize)
      if s.client.buf.length < frameHdrSize then s
      else if msgMax < payloadLen then removeClient s
      else if s.client.buf.length < frameHdrSize + payloadLen then s
      else
        let payload := (s.client.buf.drop frameHdrSize).take payloadLen
        match answerFrame (ios.headD {}) s payload with
        | (s, false) => s
        | (s, true) => processLoop rounds ios.tail (dropFrame (frameHdrSize + payloadLen) s)

theorem headD_of_forall {P : FrameIo → Prop} {ios : List FrameIo} (usual : P {})
    (all : ∀ io ∈ ios, P io) : P (ios.headD {}) := by
  cases ios with
  | nil => exact usual
  | cons io ios => exact all io List.mem_cons_self

/-! One round of the loop, by what stands at the front of the read buffer. -/

section Round
variable {s : Conn} (rounds : Nat) (ios : List FrameIo)

theorem processLoop_short (short : s.client.buf.length < frameHdrSize ∨
    BigEndian.decode (s.client.buf.take frameHdrSize) ≤ msgMax ∧
      s.client.buf.length < frameHdrSize + BigEndian.decode (s.client.buf.take frameHdrSize)) :
    processLoop (rounds + 1) ios s = s := by
  by_cases header : s.client.buf.length < frameHdrSize
  · simp only [processLoop, if_pos header]
  · obtain ⟨small, waits⟩ := short.resolve_left header
    simp only [processLoop, if_neg header, if_neg (not_lt.mpr small), if_pos waits]

theorem processLoop_oversized (header : frameHdrSize ≤ s.client.buf.length)
    (big : msgMax < BigEndian.decode (s.client.buf.take frameHdrSize)) :
    processLoop (rounds + 1) ios s = removeClient s := by
  simp only [processLoop, if_neg (not_lt.mpr header), if_pos big]

theorem processLoop_turn {size : Nat} (header : frameHdrSize ≤ s.client.buf.length)
    (eq : BigEndian.decode (s.client.buf.take frameHdrSize) = size) (small : size ≤ msgMax)
    (there : frameHdrSize + size ≤ s.client.buf.length) {s' : Conn} {ok : Bool}
    (turn : answerFrame (ios.headD {}) s ((s.client.buf.drop frameHdrSize).take size) = (s', ok)) :
    processLoop (rounds + 1) ios s =
      if ok then processLoop rounds ios.tail (dropFrame (frameHdrSize + size) s') else s' := by
  subst eq
  cases ok with
  | false =>
    simp only [processLoop, if_neg (not_lt.mpr header), if_neg (not_lt.mpr small),
      if_neg (not_lt.mpr there), turn, Bool.false_eq_true, if_false]
  | true =>
    simp only [processLoop, if_neg (not_lt.mpr header), if_neg (not_lt.mpr small),
      if_neg (not_lt.mpr there), turn, if_true]

end Round

/-- A round takes four bytes at least, so there are rounds enough. -/
def processBuffer (ios : List FrameIo) (s : Conn) : Conn :=
  processLoop (s.client.buf.length + 1) ios s

def onWrite (out : SendOutcome) (ios : List FrameIo) (s : Conn) : Conn :=
  match out with
  | .again => s
  | .error => removeClient s
  | .wrote n =>
      let s := advance n s
      if allSent s then processBuffer ios (elRemoveWrite (resetWbuf s)) else s

def arrive (bytes : Bytes) (s : Conn) : Conn :=
  { s with
    client :=
      { s.client with lastActiveMs := s.host.nowMs, buf := s.client.buf ++ bytes }
    received := s.received ++ bytes }

def onRead (out : ReadOutcome) (ios : List FrameIo) (s : Conn) : Conn :=
  if s.client.active = false then s
  else match out with
    | .again => s
    | .error => removeClient s
    | .got available =>
        let bytes := available.take (msgMax + frameHdrSize - s.client.buf.length)
        if bytes = [] then removeClient s else processBuffer ios (arrive bytes s)

/-- One event of the loop. What the other connections and the ticks do to the server
in between is any change of the rest. -/
inductive Event
  | readable (out : ReadOutcome) (ios : List FrameIo)
  | writable (out : SendOutcome) (ios : List FrameIo)
  | elsewhere (h : Host) (clientsCount : Nat)

def step (s : Conn) : Event → Conn
  | .readable out ios => if s.readHandler = some .onRead then onRead out ios s else s
  | .writable out ios => if s.writeHandler = some .onWrite then onWrite out ios s else s
  | .elsewhere h clientsCount => { s with host := h, clientsCount := clientsCount }

def run (s : Conn) (events : List Event) : Conn := Transition.run step s events

end ByteKV.Networking
