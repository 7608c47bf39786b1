import ByteKV.Accounting
import ByteKV.PythonClient

/-! client.py on a connection of the server, with two byte streams between them that deliver
pieces of any size at any time. Because the client waits for each response, a command always
finds the output buffer empty; so nothing is executed twice, and nothing is answered out of
turn. -/
namespace ByteKV.Lockstep
open Config ServerState Command Framing Accounting PythonClient
open Networking hiding Event step run
open Delivery (answers answers_append)

structure Joint where
  session : Session
  conn : Conn

/-- The client has connected, and `on_accept` has taken the connection. -/
def start (h : Host) (clientsCount : Nat) : Joint := ⟨{}, acceptedConn h clientsCount⟩

def toServer (j : Joint) : Bytes := j.session.sent.drop j.conn.received.length

def toClient (j : Joint) : Bytes := j.conn.sent.drop j.session.got.length

/-- A read finds some of the bytes under way, or the end of the stream behind them. -/
def arriving (n : Nat) (j : Joint) : ReadOutcome :=
  if (toServer j).take n ≠ [] then .got ((toServer j).take n)
  else if j.session.phase = .closed ∧ toServer j = [] then .got [] else .again

/-- `sock.recv` blocks until there are bytes, or the server has closed its end. -/
def recv (n : Nat) (j : Joint) : Session :=
  let chunk := (toClient j).take (min n (wanted j.session.phase))
  if chunk ≠ [] then receive chunk j.session
  else if j.session.phase.waits ∧ toClient j = [] ∧ j.conn.client.active = false then
    PythonClient.quit j.session
  else j.session

/-- The events of the client, those of the connection, and what the rest of the server does
meanwhile. -/
inductive Event
  | enter (cmd : Bytes)
  | push (n : Nat)
  | recv (n : Nat)
  | quit
  | readable (n : Nat) (ios : List FrameIo)
  | readFails
  | writable (out : SendOutcome) (ios : List FrameIo)
  | timedOut
  | elsewhere (h : Host) (clientsCount : Nat)

def step (j : Joint) : Event → Joint
  | .enter cmd => { j with session := enter cmd j.session }
  | .push n => { j with session := push n j.session }
  | .recv n => { j with session := recv n j }
  | .quit => { j with session := PythonClient.quit j.session }
  | .readable n ios => { j with conn := Networking.step j.conn (.readable (arriving n j) ios) }
  | .readFails => { j with conn := Networking.step j.conn (.readable .error []) }
  | .writable out ios => { j with conn := Networking.step j.conn (.writable out ios) }
  | .timedOut => { j with conn := if j.conn.client.active then removeClient j.conn else j.conn }
  | .elsewhere h clientsCount =>
      { j with conn := Networking.step j.conn (.elsewhere h clientsCount) }

def run (j : Joint) (events : List Event) : Joint := Transition.run step j events

/-- The response is what `command_execute` gives for the payload, in some state of the server. -/
def Made (call : Call) : Prop :=
  ∃ io h, call.response = (commandExecute io h call.payload msgMax).2

theorem Made.short {call : Call} (made : Made call) : call.response.length ≤ msgMax := by
  obtain ⟨io, h, response⟩ := made
  rw [response]
  exact commandExecute_length io h call.payload msgMax

/-- The server's side, with `wire` sent to it: what has been typed is executed in order, each time
with nothing unsent, and the answers are all that goes out. -/
structure Served (typed : List Bytes) (wire : Bytes) (s : Conn) : Prop where
  bounded : s.Bounded
  executed : s.handed.map Call.payload <+: typed
  alone : ∀ call ∈ s.handed, call.pending = 0
  short : ∀ call ∈ s.handed, call.payload.length ≤ msgMax
  made : ∀ call ∈ s.handed, Made call
  behind : s.received <+: wire
  sent : s.sent <+: answers s.handed
  gone : s.client.active = false → Gone s
  input : s.client.active = true →
    s.received = stream 4 (s.handed.map Call.payload) ++ s.client.buf
  output : s.client.active = true → s.output = answers s.handed

structure Turn (p : Nat) (s : Conn) : Prop where
  within : p ≤ s.handed.length
  drained : s.handed.length = p → s.client.unsent = []

theorem answers_stream (calls : List Call) :
    answers calls = stream 4 (calls.map Call.response) := by
  rw [answers, stream, List.map_map]
  rfl

theorem fits_of_alone {call : Call} (alone : call.pending = 0)
    (short : call.response.length ≤ msgMax) : call.Fits := by
  rw [msgMax_eq] at short
  rw [Call.Fits, alone, frameHdrSize_eq, wbufSize_eq]
  omega

section Served
variable {typed : List Bytes} {wire : Bytes} {p : Nat} {s s' : Conn}

theorem Served.quiet (served : Served typed wire s) (moved : Moved s s' [] [])
    (active : s.client.active = true) : Served typed wire s' := by
  have alive : s'.client.active = true := moved.active.trans active
  have handed : s'.handed = s.handed := moved.handed.trans (List.append_nil _)
  have output : s'.output = answers s'.handed := by
    rw [moved.output, handed, ← served.output active]
    exact List.append_nil _
  refine ⟨moved.bounded, handed ▸ served.executed, handed ▸ served.alone, handed ▸ served.short,
    handed ▸ served.made, moved.received ▸ served.behind, output ▸ List.prefix_append _ _,
    fun dead => ?_, fun _ => ?_, fun _ => output⟩
  · rw [alive] at dead
    cases dead
  · rw [moved.received, moved.buf, handed, served.input active]

theorem Served.removed (served : Served typed wire s) : Served typed wire (removeClient s) :=
  ⟨Nat.le_refl 0, served.executed, served.alone, served.short, served.made, served.behind,
    served.sent, fun _ => ⟨rfl, rfl, rfl⟩, nofun, nofun⟩

theorem Served.elsewhere (served : Served typed wire s) (h : Host) (clientsCount : Nat) :
    Served typed wire { s with host := h, clientsCount := clientsCount } := by
  obtain ⟨bounded, executed, alone, short, made, behind, sent, gone, input, output⟩ := served
  refine ⟨bounded, executed, alone, short, made, behind, sent, fun dead => ?_, input, output⟩
  obtain ⟨inactive, read, write⟩ := gone dead
  exact ⟨inactive, read, write⟩

theorem Served.arrive (served : Served typed wire s) {bytes : Bytes}
    (active : s.client.active = true)
    (more : s.received ++ bytes <+: wire) : Served typed wire (arrive bytes s) where
  bounded := served.bounded
  executed := served.executed
  alone := served.alone
  short := served.short
  made := served.made
  behind := more
  sent := served.sent
  gone dead := by
    change s.client.active = false at dead
    rw [active] at dead
    cases dead
  input _ := by
    change s.received ++ bytes = stream 4 (s.handed.map Call.payload) ++ (s.client.buf ++ bytes)
    rw [served.input active, List.append_assoc]
  output _ := served.output active

theorem Served.next (served : Served typed wire s) (legal : Legal typed)
    (sent : wire <+: stream 4 typed) (active : s.client.active = true)
    (turn : typed.length ≤ p + 1) (read : Turn p s) {payload : Bytes} (there : AtFront payload s) :
    (s.handed.map Call.payload ++ [payload]) <+: typed ∧ s.handed.length = p ∧
      s.client.unsent = [] := by
  have small : payload.length < 256 ^ 4 := by
    have := there.legal
    rw [msgMax_eq] at this
    omega
  obtain ⟨tail, buf⟩ := there.front
  have pre : stream 4 (s.handed.map Call.payload ++ [payload]) <+: stream 4 typed := by
    refine List.IsPrefix.trans ⟨tail, ?_⟩ (served.behind.trans sent)
    rw [served.input active, ← buf, stream_append, stream_cons, stream_nil, List.append_nil,
      List.append_assoc]
    rfl
  have next := stream_prefix (fun q member => ?_) legal pre (by decide)
  · have len := next.length_le
    rw [List.length_append, List.length_map, List.length_singleton] at len
    have within := read.within
    have all : s.handed.length = p := by omega
    exact ⟨next, all, read.drained all⟩
  · rcases List.mem_append.mp member with old | new
    · exact legal q (served.executed.subset old)
    · rw [List.mem_singleton.mp new]
      exact small

theorem Served.called (served : Served typed wire s) (legal : Legal typed)
    (sent : wire <+: stream 4 typed) (active : s.client.active = true)
    (turn : typed.length ≤ p + 1) (read : Turn p s)
    {payload : Bytes} (there : AtFront payload s) (io : FrameIo) :
    (s.handed ++ [callOf io s payload]).map Call.payload <+: typed ∧
      (∀ call ∈ s.handed ++ [callOf io s payload],
        call.pending = 0 ∧ call.payload.length ≤ msgMax ∧ Made call) ∧
      p + 1 = (s.handed ++ [callOf io s payload]).length ∧ (callOf io s payload).Fits := by
  obtain ⟨next, all, drained⟩ := served.next legal sent active turn read there
  have alone : (callOf io s payload).pending = 0 := by
    change s.client.unsent.length = 0
    rw [drained, List.length_nil]
  have made : Made (callOf io s payload) := ⟨io.request, s.host, rfl⟩
  refine ⟨?_, fun call member => ?_, ?_, fits_of_alone alone made.short⟩
  · rw [List.map_append, List.map_singleton]
    exact next
  · rcases List.mem_append.mp member with old | new
    · exact ⟨served.alone call old, served.short call old, served.made call old⟩
    · rw [List.mem_singleton.mp new]
      exact ⟨alone, there.legal, made⟩
  · rw [List.length_append, List.length_singleton, all]

/-- The loop serves: at most one command is there, and it is answered. -/
theorem processLoop_served (legal : Legal typed) (sent : wire <+: stream 4 typed)
    (turn : typed.length ≤ p + 1) (rounds : Nat)
    (ios : List FrameIo) (served : Served typed wire s) (active : s.client.active = true)
    (read : Turn p s) : Served typed wire (processLoop rounds ios s) := by
  induction rounds generalizing ios s with
  | zero => exact served
  | succ rounds ih =>
    cases front frameHdrSize msgMax s.client.buf with
    | short eq few why =>
      rw [processLoop_short rounds ios why]
      exact served
    | oversized header big =>
      rw [processLoop_oversized rounds ios header big]
      exact served.removed
    | whole header small there =>
      obtain ⟨len, atFront⟩ := firstPayload_front header small there
      obtain ⟨executed, calls, count, fits⟩ :=
        served.called legal sent active turn read atFront (ios.headD {})
      have case := answerFrame_cases (ios.headD {}) served.bounded (firstPayload s)
      have handed := (answerFrame_call (ios.headD {}) s (firstPayload s)).2.1
      obtain ⟨⟨s', ok⟩, eq⟩ : ∃ out, answerFrame (ios.headD {}) s (firstPayload s) = out := ⟨_, rfl⟩
      rw [processLoop_turn rounds ios header rfl small there eq]
      rw [eq] at case handed
      have same {call : Call} {sends : List (Bytes × Bool)} (moved : Moved s s' [call] sends)
          (handed : s'.handed = s.handed ++ [callOf (ios.headD {}) s (firstPayload s)]) :
          call = callOf (ios.headD {}) s (firstPayload s) :=
        List.singleton_inj.mp (List.append_cancel_left (moved.handed.symm.trans handed))
      cases case with
      | answered _ call asked room moved =>
        have alive : s'.client.active = true := moved.active.trans active
        have output : s'.output = answers s'.handed := by
          rw [moved.output, moved.handed, answers_append, served.output active]
          simp [Networking.acceptedData, answers]
        obtain ⟨tail, buf⟩ := atFront.front
        have next : Served typed wire (dropFrame (frameHdrSize + (firstPayload s).length) s') := by
          refine ⟨moved.bounded, handed ▸ executed, fun c member => (calls c (handed ▸ member)).1,
            fun c member => (calls c (handed ▸ member)).2.1,
            fun c member => (calls c (handed ▸ member)).2.2, moved.received ▸ served.behind,
            output ▸ List.prefix_append _ _, fun dead => ?_, fun _ => ?_, fun _ => output⟩
          · change s'.client.active = false at dead
            rw [alive] at dead
            cases dead
          · change s'.received = stream 4 (s'.handed.map Call.payload) ++ s'.client.buf.drop _
            rw [moved.received, moved.handed, moved.buf, served.input active, ← buf,
              List.drop_left' (frame_length _ _), List.map_append, List.map_singleton, asked,
              stream_append, stream_cons, stream_nil, List.append_nil, List.append_assoc]
            rfl
        rw [len] at next
        refine ih _ next alive ⟨?_, fun all => ?_⟩
        · change p ≤ s'.handed.length
          rw [handed, ← count]
          exact Nat.le_succ p
        · change s'.handed.length = p at all
          rw [handed, ← count] at all
          omega
      | full _ call asked short moved => exact absurd (same moved handed ▸ fits) short
      | dropped gone call asked room failed moved =>
        rw [if_neg Bool.false_ne_true]
        change gone.handed = _ at handed
        have gone_sent : gone.sent <+: answers gone.handed := by
          have output : gone.output = answers s.handed := by
            rw [moved.output, served.output active]
            exact List.append_nil _
          have front : gone.sent <+: answers s.handed := output ▸ List.prefix_append _ _
          rw [handed, answers_append]
          exact front.trans (List.prefix_append _ _)
        exact ⟨Nat.le_refl 0, handed ▸ executed, fun c member => (calls c (handed ▸ member)).1,
          fun c member => (calls c (handed ▸ member)).2.1,
          fun c member => (calls c (handed ▸ member)).2.2, moved.received ▸ served.behind, gone_sent,
          fun _ => ⟨rfl, rfl, rfl⟩, fun live => Bool.noConfusion live,
          fun live => Bool.noConfusion live⟩

theorem onRead_served (legal : Legal typed) (sent : wire <+: stream 4 typed)
    (turn : typed.length ≤ p + 1) {out : ReadOutcome}
    (ios : List FrameIo) (served : Served typed wire s) (active : s.client.active = true)
    (read : Turn p s)
    (more : ∀ available, out = .got available → s.received ++ available <+: wire) :
    Served typed wire (onRead out ios s) := by
  unfold onRead
  rw [if_neg (by simp [active])]
  split
  · exact served
  · exact served.removed
  · rename_i available
    simp only
    split
    · exact served.removed
    · have front : s.received ++ available.take (msgMax + frameHdrSize - s.client.buf.length) <+:
          wire :=
        ((List.prefix_append_right_inj _).mpr (List.take_prefix _ _)).trans (more available rfl)
      exact processLoop_served legal sent turn _ ios (served.arrive active front) active
        ⟨read.within, read.drained⟩

theorem onWrite_served (legal : Legal typed) (sent : wire <+: stream 4 typed)
    (turn : typed.length ≤ p + 1) (out : SendOutcome)
    (ios : List FrameIo) (served : Served typed wire s) (active : s.client.active = true)
    (within : p ≤ s.handed.length) : Served typed wire (onWrite out ios s) := by
  unfold onWrite
  split
  · exact served
  · exact served.removed
  · rename_i n
    have taken := advance_moved n served.bounded
    simp only
    split
    · rename_i done
      have reset := taken.trans (resetWbuf_moved done)
      exact processLoop_served legal sent turn _ ios
        (served.quiet (reset.trans (elRemoveWrite_moved reset.bounded)) active) active
        ⟨within, fun _ => rfl⟩
    · exact served.quiet taken active

end Served

/-! Both sides. -/

structure Locked (j : Joint) : Prop where
  session : j.session.Ok
  served : Served j.session.typed j.session.sent j.conn
  got : j.session.got <+: j.conn.sent

theorem append_take_drop {a b : Bytes} (pre : a <+: b) (n : Nat) :
    a ++ (b.drop a.length).take n <+: b := by
  obtain ⟨c, rfl⟩ := pre
  rw [List.drop_left]
  exact (List.prefix_append_right_inj a).mpr (List.take_prefix n c)

theorem Served.legal {typed : List Bytes} {wire : Bytes} {s : Conn} (served : Served typed wire s) :
    Legal (s.handed.map Call.response) := by
  intro r member
  obtain ⟨call, there, rfl⟩ := List.mem_map.mp member
  have short := (served.made call there).short
  rw [msgMax_eq] at short
  omega

namespace Locked
variable {j : Joint} (inv : Locked j)
include inv

theorem printed : j.session.printed <+: j.conn.handed.map Call.response := by
  refine stream_prefix inv.session.responses inv.served.legal ?_ (by decide)
  rw [← answers_stream]
  exact (inv.session.told.trans inv.got).trans inv.served.sent

theorem prompt (prompt : j.session.phase = .prompt) :
    j.conn.handed.map Call.payload = j.session.typed ∧
      j.session.printed = j.conn.handed.map Call.response := by
  have executed := inv.served.executed
  have answered := inv.printed
  have idle := inv.session.idle prompt
  have least := answered.length_le
  have most := executed.length_le
  rw [List.length_map] at least most
  exact ⟨executed.eq_of_length (by rw [List.length_map]; omega),
    answered.eq_of_length (by rw [List.length_map]; omega)⟩

theorem turn (active : j.conn.client.active = true) : Turn j.session.printed.length j.conn := by
  have printed := inv.printed
  refine ⟨by simpa using printed.length_le, fun all => ?_⟩
  have same : j.session.printed = j.conn.handed.map Call.response :=
    printed.eq_of_length (by rw [List.length_map, all])
  have told : answers j.conn.handed <+: j.conn.sent := by
    rw [answers_stream, ← same]
    exact inv.session.told.trans inv.got
  have output := inv.served.output active
  rw [← output] at told
  have len := told.length_le
  rw [Conn.output, List.length_append] at len
  exact List.length_eq_zero_iff.mp (by omega)

theorem arriving (n : Nat) (available : Bytes) (got : arriving n j = .got available) :
    j.conn.received ++ available <+: j.session.sent := by
  unfold Lockstep.arriving at got
  split at got
  · obtain rfl := ReadOutcome.got.inj got
    exact append_take_drop inv.served.behind n
  · split at got
    · obtain rfl := ReadOutcome.got.inj got
      rw [List.append_nil]
      exact inv.served.behind
    · cases got

theorem serve {s : Conn} (served : Served j.session.typed j.session.sent s)
    (sent : j.conn.sent <+: s.sent) : Locked { j with conn := s } :=
  ⟨inv.session, served, inv.got.trans sent⟩

theorem read {out : ReadOutcome} (ios : List FrameIo)
    (more : ∀ available, out = .got available → j.conn.received ++ available <+: j.session.sent) :
    Locked { j with conn := Networking.step j.conn (.readable out ios) } := by
  simp only [Networking.step]
  split
  · rename_i handler
    have active : j.conn.client.active = true := by
      by_contra dead
      rw [(inv.served.gone (by simpa using dead)).readHandler] at handler
      cases handler
    obtain ⟨calls, ran⟩ := onRead_ran out ios j.conn
    exact inv.serve (onRead_served inv.session.legal inv.session.behind inv.session.turn ios
      inv.served active (inv.turn active) more) ran.sent
  · exact inv

theorem write (out : SendOutcome) (ios : List FrameIo) :
    Locked { j with conn := Networking.step j.conn (.writable out ios) } := by
  simp only [Networking.step]
  split
  · rename_i handler
    have active : j.conn.client.active = true := by
      by_contra dead
      rw [(inv.served.gone (by simpa using dead)).writeHandler] at handler
      cases handler
    obtain ⟨calls, ran⟩ := onWrite_ran out ios j.conn
    exact inv.serve (onWrite_served inv.session.legal inv.session.behind inv.session.turn out ios
      inv.served active (inv.turn active).within) ran.sent
  · exact inv

theorem ask {s : Session} (ok : s.Ok) (typed : j.session.typed <+: s.typed)
    (sent : j.session.sent <+: s.sent) (got : s.got <+: j.conn.sent) :
    Locked { j with session := s } := by
  obtain ⟨bounded, executed, alone, short, made, behind, out, gone, input, output⟩ := inv.served
  exact ⟨ok, ⟨bounded, executed.trans typed, alone, short, made, behind.trans sent, out, gone,
    input, output⟩, got⟩

end Locked

theorem collect_histories (length : Nat) (data : Bytes) (s : Session) :
    (collect length data s).typed = s.typed ∧ (collect length data s).sent = s.sent ∧
      (collect length data s).got = s.got := by
  unfold collect
  split
  · exact ⟨rfl, rfl, rfl⟩
  · split <;> exact ⟨rfl, rfl, rfl⟩

theorem receive_histories (chunk : Bytes) (s : Session) : (receive chunk s).typed = s.typed ∧
    (receive chunk s).sent = s.sent ∧
      ((receive chunk s).got = s.got ∨ (receive chunk s).got = s.got ++ chunk) := by
  unfold receive
  split
  · simp only
    split
    · exact ⟨rfl, rfl, Or.inr rfl⟩
    · exact collect_histories _ _ _ |>.imp_right (·.imp_right Or.inr)
  · exact collect_histories _ _ _ |>.imp_right (·.imp_right Or.inr)
  · exact ⟨rfl, rfl, Or.inl rfl⟩

theorem step_locked {j : Joint} (inv : Locked j) (e : Event) : Locked (step j e) := by
  cases e with
  | enter cmd =>
    refine inv.ask (inv.session.enter cmd) ?_ ?_ ?_ <;> unfold PythonClient.enter
    · split
      · exact List.prefix_rfl
      · split
        · exact List.prefix_rfl
        · exact List.prefix_append _ _
    · split
      · exact List.prefix_rfl
      · split <;> exact List.prefix_rfl
    · split
      · exact inv.got
      · split <;> exact inv.got
  | push n =>
    refine inv.ask (inv.session.push n) ?_ ?_ ?_ <;> unfold PythonClient.push
    · split <;> exact List.prefix_rfl
    · split
      · exact List.prefix_append _ _
      · exact List.prefix_rfl
    · split <;> exact inv.got
  | recv n =>
    simp only [step, recv]
    split
    · obtain ⟨typed, sent, got⟩ := receive_histories
        ((toClient j).take (min n (wanted j.session.phase))) j.session
      refine inv.ask (inv.session.receive ?_) (typed ▸ List.prefix_rfl) (sent ▸ List.prefix_rfl) ?_
      · exact (List.length_take_le _ _).trans (Nat.min_le_right _ _)
      · rcases got with same | more
        · exact same ▸ inv.got
        · rw [more]
          exact append_take_drop inv.got _
    · split
      · exact inv.ask inv.session.quit List.prefix_rfl List.prefix_rfl inv.got
      · exact inv
  | quit => exact inv.ask inv.session.quit List.prefix_rfl List.prefix_rfl inv.got
  | readable n ios => exact inv.read ios fun available got => inv.arriving n available got
  | readFails => exact inv.read [] nofun
  | writable out ios => exact inv.write out ios
  | timedOut =>
    simp only [step]
    split
    · exact inv.serve inv.served.removed List.prefix_rfl
    · exact inv
  | elsewhere h clientsCount => exact inv.serve (inv.served.elsewhere h clientsCount) List.prefix_rfl

theorem start_locked (h : Host) (clientsCount : Nat) : Locked (start h clientsCount) where
  session := .start
  served := ⟨Nat.le_refl 0, List.prefix_rfl, nofun, nofun, nofun, List.prefix_rfl,
    List.prefix_rfl, nofun, fun _ => rfl, fun _ => rfl⟩
  got := List.prefix_rfl

/-- Each command is executed once, in the order of typing; the responses are printed in that
order too, and the terminal is never more than one response behind. -/
structure InStep (j : Joint) : Prop where
  executed : j.conn.handed.map Call.payload <+: j.session.typed
  made : ∀ call ∈ j.conn.handed, Made call
  answered : j.session.printed <+: j.conn.handed.map Call.response
  decoded : ∀ r ∈ j.session.printed, Decodes r
  behind : j.session.typed.length ≤ j.session.printed.length + 1
  prompt : j.session.phase = .prompt → j.conn.handed.map Call.payload = j.session.typed ∧
    j.session.printed = j.conn.handed.map Call.response
  room : ∀ call ∈ j.conn.handed, call.pending = 0

theorem run_inStep (h : Host) (clientsCount : Nat) (events : List Event) :
    InStep (run (start h clientsCount) events) := by
  have keep (j : Joint) (e : Event) (inv : Locked j) : Locked (step j e) := step_locked inv e
  have inv : Locked (run (start h clientsCount) events) :=
    Transition.run_invariant_always keep (start_locked h clientsCount) events
  exact ⟨inv.served.executed, inv.served.made, inv.printed, inv.session.decoded,
    inv.session.turn, inv.prompt, inv.served.alone⟩

end ByteKV.Lockstep
