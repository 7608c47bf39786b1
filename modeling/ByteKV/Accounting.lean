import ByteKV.Delivery
import ByteKV.FrameStream
import Mathlib.Data.List.Chain

/-! The books of one connection, whatever bytes arrive and whichever calls fail. Its input is
the frames whose responses found room and what is still in the buffer, its output is those
responses, and a call without room is made again before any other. The calls themselves run
one after the other on the host. -/
namespace ByteKV.Accounting
open Config ServerState Command Networking Framing FramedInput Delivery

def settled (calls : List Call) : List Bytes := (calls.filter fun call => call.Fits).map Call.payload

/-- The second call asks again what the first was asked, if that found no room. -/
def Retries (c d : Call) : Prop := ¬ c.Fits → d.payload = c.payload

structure Ledger (s : Conn) : Prop where
  legal : ∀ c ∈ s.handed, c.payload.length ≤ msgMax
  received : s.received = streamOf (settled s.handed) ++ s.client.buf
  output : s.output = served s.handed
  retried : s.handed.IsChain Retries
  waiting : ∀ c ∈ s.handed.getLast?, ¬ c.Fits → frame frameHdrSize c.payload <+: s.client.buf

structure Booked (s : Conn) : Prop where
  bounded : s.Bounded
  ledger : s.client.active = true → Ledger s

structure AtFront (payload : Bytes) (s : Conn) : Prop where
  legal : payload.length ≤ msgMax
  front : frame frameHdrSize payload <+: s.client.buf

theorem frame_injective {p q buf : Bytes} (hp : p.length ≤ msgMax) (hq : q.length ≤ msgMax)
    (front : frame frameHdrSize p <+: buf) (front' : frame frameHdrSize q <+: buf) : p = q := by
  have len {r : Bytes} (hr : r.length ≤ msgMax) : r.length < 256 ^ frameHdrSize := by
    rw [msgMax_eq] at hr
    rw [frameHdrSize_eq]
    omega
  obtain ⟨s, rfl⟩ := front
  obtain ⟨t, eq⟩ := front'
  have pre : frame frameHdrSize p ++ s <+: frame frameHdrSize q ++ t := by rw [eq]
  exact (frame_append_cancel (len hp) (len hq) pre).1

theorem settled_append (calls calls' : List Call) :
    settled (calls ++ calls') = settled calls ++ settled calls' := by
  simp [settled]

theorem settled_single {call : Call} :
    (call.Fits → settled [call] = [call.payload]) ∧ (¬ call.Fits → settled [call] = []) := by
  constructor <;> intro fits <;> simp [settled, fits]

section Ledger
variable {s s' : Conn} {payload : Bytes} {call : Call}

theorem Ledger.quiet (ledger : Ledger s) (moved : Moved s s' [] []) : Ledger s' where
  legal := by
    rw [moved.handed, List.append_nil]
    exact ledger.legal
  received := by rw [moved.received, moved.handed, moved.buf, List.append_nil, ledger.received]
  output := by
    rw [moved.output, moved.handed, List.append_nil, ledger.output]
    exact List.append_nil _
  retried := by
    rw [moved.handed, List.append_nil]
    exact ledger.retried
  waiting c last := by
    rw [moved.handed, List.append_nil] at last
    rw [moved.buf]
    exact ledger.waiting c last

theorem Ledger.arrive (ledger : Ledger s) (bytes : Bytes) : Ledger (arrive bytes s) where
  legal := ledger.legal
  received := by
    change s.received ++ bytes = streamOf (settled s.handed) ++ (s.client.buf ++ bytes)
    rw [ledger.received, List.append_assoc]
  output := ledger.output
  retried := ledger.retried
  waiting c last short := (ledger.waiting c last short).trans (List.prefix_append _ _)

theorem Ledger.asks (ledger : Ledger s) (there : AtFront payload s)
    (asked : call.payload = payload) : (∀ c ∈ s.handed ++ [call], c.payload.length ≤ msgMax) ∧
      (s.handed ++ [call]).IsChain Retries := by
  refine ⟨fun c member => ?_, List.isChain_append.mpr
    ⟨ledger.retried, List.isChain_singleton call, fun c last d only short => ?_⟩⟩
  · rcases List.mem_append.mp member with old | new
    · exact ledger.legal c old
    · rw [List.mem_singleton.mp new, asked]
      exact there.legal
  · obtain rfl : call = d := by simpa using only
    have member : c ∈ s.handed := List.mem_of_getLast? last
    rw [asked]
    exact frame_injective there.legal (ledger.legal c member) there.front
      (ledger.waiting c last short)

theorem Ledger.answered (ledger : Ledger s) (there : AtFront payload s)
    (asked : call.payload = payload) (room : call.Fits)
    (moved : Moved s s' [call] [(frame frameHdrSize call.response, true)]) :
    Ledger (dropFrame (frameHdrSize + payload.length) s') := by
  obtain ⟨legal, retried⟩ := ledger.asks there asked
  obtain ⟨tail, buf⟩ := there.front
  refine ⟨moved.handed ▸ legal, ?_, ?_, moved.handed ▸ retried, fun c last short => ?_⟩
  · change s'.received = streamOf (settled s'.handed) ++ s'.client.buf.drop _
    rw [moved.received, moved.handed, moved.buf, ledger.received, ← buf,
      List.drop_left' (frame_length _ _), settled_append, settled_single.1 room, streamOf_append,
      asked]
    simp [streamOf]
  · change s'.output = served s'.handed
    rw [moved.output, moved.handed, served_append, served_single.1 room, ledger.output]
    simp [acceptedData]
  · change c ∈ s'.handed.getLast? at last
    rw [moved.handed, List.getLast?_concat] at last
    obtain rfl : call = c := Option.some.inj last
    exact absurd room short

theorem Ledger.full (ledger : Ledger s) (there : AtFront payload s)
    (asked : call.payload = payload) (short : ¬ call.Fits)
    (moved : Moved s s' [call] [(frame frameHdrSize call.response, false)]) : Ledger s' := by
  obtain ⟨legal, retried⟩ := ledger.asks there asked
  refine ⟨moved.handed ▸ legal, ?_, ?_, moved.handed ▸ retried, fun c last _ => ?_⟩
  · rw [moved.received, moved.handed, moved.buf, settled_append, settled_single.2 short,
      List.append_nil, ledger.received]
  · rw [moved.output, moved.handed, served_append, served_single.2 short, ledger.output]
    rfl
  · rw [moved.handed, List.getLast?_concat] at last
    obtain rfl : call = c := Option.some.inj last
    rw [moved.buf, asked]
    exact there.front

end Ledger

def firstPayload (s : Conn) : Bytes :=
  (s.client.buf.drop frameHdrSize).take (BigEndian.decode (s.client.buf.take frameHdrSize))

theorem firstPayload_front {s : Conn} (header : frameHdrSize ≤ s.client.buf.length)
    (small : BigEndian.decode (s.client.buf.take frameHdrSize) ≤ msgMax)
    (there : frameHdrSize + BigEndian.decode (s.client.buf.take frameHdrSize) ≤ s.client.buf.length) :
    (firstPayload s).length = BigEndian.decode (s.client.buf.take frameHdrSize) ∧
      AtFront (firstPayload s) s := by
  have len : (firstPayload s).length = BigEndian.decode (s.client.buf.take frameHdrSize) := by
    rw [firstPayload, List.length_take, List.length_drop]
    omega
  have word : (s.client.buf.take frameHdrSize).length = frameHdrSize := by
    rw [List.length_take]
    omega
  have same := BigEndian.encode_decode (s.client.buf.take frameHdrSize)
  rw [word] at same
  refine ⟨len, len.trans_le small, (s.client.buf.drop frameHdrSize).drop
    (BigEndian.decode (s.client.buf.take frameHdrSize)), ?_⟩
  rw [frame, len, same, firstPayload, List.append_assoc, List.take_append_drop,
    List.take_append_drop]

theorem processLoop_booked (rounds : Nat) (ios : List FrameIo) {s : Conn} (booked : Booked s) :
    Booked (processLoop rounds ios s) := by
  induction rounds generalizing ios s with
  | zero => exact booked
  | succ rounds ih =>
    cases front frameHdrSize msgMax s.client.buf with
    | short eq few why =>
      rw [processLoop_short rounds ios why]
      exact booked
    | oversized header big =>
      rw [processLoop_oversized rounds ios header big]
      exact ⟨Nat.le_refl 0, nofun⟩
    | whole header small there =>
      obtain ⟨len, atFront⟩ := firstPayload_front header small there
      have turn := answerFrame_cases (ios.headD {}) booked.bounded (firstPayload s)
      obtain ⟨⟨s', ok⟩, eq⟩ : ∃ out, answerFrame (ios.headD {}) s (firstPayload s) = out := ⟨_, rfl⟩
      rw [processLoop_turn rounds ios header rfl small there eq]
      rw [eq] at turn
      cases turn with
      | answered _ call asked room moved =>
        refine ih _ ⟨moved.bounded, fun active => ?_⟩
        have ledger := booked.ledger (moved.active.symm.trans active)
        have next := ledger.answered atFront asked room moved
        rwa [len] at next
      | full _ call asked short moved =>
        exact ⟨moved.bounded, fun active =>
          (booked.ledger (moved.active.symm.trans active)).full atFront asked short moved⟩
      | dropped gone call asked room failed moved => exact ⟨Nat.le_refl 0, nofun⟩

theorem Booked.quiet {s s' : Conn} (booked : Booked s) (moved : Moved s s' [] []) : Booked s' :=
  ⟨moved.bounded, fun active => (booked.ledger (moved.active.symm.trans active)).quiet moved⟩

theorem Booked.elsewhere {s : Conn} (booked : Booked s) (h : Host) (clientsCount : Nat) :
    Booked { s with host := h, clientsCount := clientsCount } := by
  refine ⟨booked.bounded, fun active => ?_⟩
  obtain ⟨legal, received, output, retried, waiting⟩ := booked.ledger active
  exact ⟨legal, received, output, retried, waiting⟩

theorem removeClient_booked (s : Conn) : Booked (removeClient s) := ⟨Nat.le_refl 0, nofun⟩

theorem onRead_booked (out : ReadOutcome) (ios : List FrameIo) {s : Conn} (booked : Booked s) :
    Booked (onRead out ios s) := by
  unfold onRead
  split
  · exact booked
  · split
    · exact booked
    · exact removeClient_booked s
    · simp only
      split
      · exact removeClient_booked s
      · exact processLoop_booked _ ios
          ⟨booked.bounded, fun active => (booked.ledger active).arrive _⟩

theorem onWrite_booked (out : SendOutcome) (ios : List FrameIo) {s : Conn} (booked : Booked s) :
    Booked (onWrite out ios s) := by
  unfold onWrite
  split
  · exact booked
  · exact removeClient_booked s
  · rename_i n
    have taken := advance_moved n booked.bounded
    simp only
    split
    · rename_i done
      have reset := taken.trans (resetWbuf_moved done)
      exact processLoop_booked _ ios (booked.quiet (reset.trans (elRemoveWrite_moved reset.bounded)))
    · exact booked.quiet taken

/-! The calls, on the host. -/

inductive Executes : Host → List FrameIo → List Call → Host → Prop
  | nil (h : Host) (ios : List FrameIo) : Executes h ios [] h
  | cons {h h' : Host} {ios : List FrameIo} {call : Call} {calls : List Call}
      (legal : call.payload.length ≤ msgMax)
      (answer : call.response = (commandExecute (ios.headD {}).request h call.payload msgMax).2)
      (rest : Executes (commandExecute (ios.headD {}).request h call.payload msgMax).1 ios.tail
        calls h') :
      Executes h ios (call :: calls) h'

structure Wrote (s s' : Conn) : Prop where
  host : s'.host = s.host
  handed : s'.handed = s.handed
  sent : s.sent <+: s'.sent

theorem Wrote.refl (s : Conn) : Wrote s s := ⟨rfl, rfl, List.prefix_rfl⟩

theorem Wrote.trans {s s' s'' : Conn} (a : Wrote s s') (b : Wrote s' s'') : Wrote s s'' :=
  ⟨b.host.trans a.host, b.handed.trans a.handed, a.sent.trans b.sent⟩

theorem advance_wrote (n : Nat) (s : Conn) : Wrote s (advance n s) :=
  ⟨rfl, rfl, List.prefix_append _ _⟩

theorem elAddWrite_wrote (registered : Bool) (s : Conn) : Wrote s (elAddWrite registered s) := by
  unfold elAddWrite
  split <;> exact ⟨rfl, rfl, List.prefix_rfl⟩

theorem directWrite_wrote (io : SendIo) (s : Conn) : Wrote s (directWrite io s).1 := by
  unfold directWrite
  split
  · exact ⟨rfl, rfl, List.prefix_rfl⟩
  · exact elAddWrite_wrote _ s
  · simp only
    split
    · exact (advance_wrote _ s).trans ⟨rfl, rfl, List.prefix_rfl⟩
    · exact (advance_wrote _ s).trans (elAddWrite_wrote _ _)

theorem queueWrite_wrote (io : SendIo) (s : Conn) (data : Bytes) :
    Wrote s (queueWrite io s data).1 := by
  have packed : Wrote s (compact data.length s) := by
    rw [compact]
    split
    · exact ⟨rfl, rfl, List.prefix_rfl⟩
    · exact .refl s
  refine packed.trans ?_
  rw [queueWrite]
  generalize compact data.length s = t
  split
  · exact ⟨rfl, rfl, List.prefix_rfl⟩
  · split
    · obtain ⟨host, handed, sent⟩ :=
        directWrite_wrote io { t with client := { t.client with wbuf := t.client.wbuf ++ data } }
      exact ⟨host, handed, sent⟩
    · obtain ⟨host, handed, sent⟩ := elAddWrite_wrote io.registered
        { t with client := { t.client with wbuf := t.client.wbuf ++ data } }
      exact ⟨host, handed, sent⟩

theorem removeClient_wrote (s : Conn) : Wrote s (removeClient s) := ⟨rfl, rfl, List.prefix_rfl⟩

def callOf (io : FrameIo) (s : Conn) (payload : Bytes) : Call :=
  ⟨payload, (commandExecute io.request s.host payload msgMax).2, s.client.unsent.length⟩

theorem answerFrame_call (io : FrameIo) (s : Conn) (payload : Bytes) :
    (answerFrame io s payload).1.host = (commandExecute io.request s.host payload msgMax).1 ∧
      (answerFrame io s payload).1.handed = s.handed ++ [callOf io s payload] ∧
      s.sent <+: (answerFrame io s payload).1.sent := by
  obtain ⟨host, handed, sent⟩ := queueWrite_wrote io.send (execute io.request s payload).1
    (frame frameHdrSize (execute io.request s payload).2)
  exact ⟨host, handed, sent⟩

/-- A callback hands over some calls, which run on the host one after the other. -/
structure Ran (ios : List FrameIo) (s s' : Conn) (calls : List Call) : Prop where
  handed : s'.handed = s.handed ++ calls
  executes : Executes s.host ios calls s'.host
  sent : s.sent <+: s'.sent

theorem Wrote.ran {s s' : Conn} (wrote : Wrote s s') (ios : List FrameIo) : Ran ios s s' [] :=
  ⟨wrote.handed.trans (List.append_nil _).symm, wrote.host ▸ .nil _ _, wrote.sent⟩

theorem processLoop_ran (rounds : Nat) (ios : List FrameIo) (s : Conn) :
    ∃ calls, Ran ios s (processLoop rounds ios s) calls := by
  induction rounds generalizing ios s with
  | zero => exact ⟨[], (Wrote.refl s).ran ios⟩
  | succ rounds ih =>
    cases front frameHdrSize msgMax s.client.buf with
    | short eq few why =>
      rw [processLoop_short rounds ios why]
      exact ⟨[], (Wrote.refl s).ran ios⟩
    | oversized header big =>
      rw [processLoop_oversized rounds ios header big]
      exact ⟨[], (removeClient_wrote s).ran ios⟩
    | whole header small there =>
      obtain ⟨len, atFront⟩ := firstPayload_front header small there
      obtain ⟨host, handed, sent⟩ := answerFrame_call (ios.headD {}) s (firstPayload s)
      obtain ⟨⟨s', ok⟩, eq⟩ : ∃ out, answerFrame (ios.headD {}) s (firstPayload s) = out := ⟨_, rfl⟩
      rw [processLoop_turn rounds ios header rfl small there eq]
      rw [eq] at host handed sent
      cases ok with
      | false =>
        rw [if_neg Bool.false_ne_true]
        have last : Executes (commandExecute (ios.headD {}).request s.host (firstPayload s)
            msgMax).1 ios.tail [] s'.host := host ▸ .nil _ _
        exact ⟨_, handed, .cons atFront.legal rfl last, sent⟩
      | true =>
        rw [if_pos rfl]
        obtain ⟨calls, more, rest, sent'⟩ := ih ios.tail (dropFrame _ s')
        change Executes s'.host ios.tail calls _ at rest
        change _ = s'.handed ++ calls at more
        rw [host] at rest
        have runs : Executes s.host ios (callOf (ios.headD {}) s (firstPayload s) :: calls) _ :=
          .cons atFront.legal rfl rest
        refine ⟨_, ?_, runs, sent.trans sent'⟩
        rw [more, handed, List.append_assoc, List.singleton_append]

theorem onRead_ran (out : ReadOutcome) (ios : List FrameIo) (s : Conn) :
    ∃ calls, Ran ios s (onRead out ios s) calls := by
  unfold onRead
  split
  · exact ⟨[], (Wrote.refl s).ran ios⟩
  · split
    · exact ⟨[], (Wrote.refl s).ran ios⟩
    · exact ⟨[], (removeClient_wrote s).ran ios⟩
    · simp only
      split
      · exact ⟨[], (removeClient_wrote s).ran ios⟩
      · obtain ⟨calls, handed, executes, sent⟩ := processLoop_ran _ ios (arrive _ s)
        exact ⟨calls, handed, executes, sent⟩

theorem onWrite_ran (out : SendOutcome) (ios : List FrameIo) (s : Conn) :
    ∃ calls, Ran ios s (onWrite out ios s) calls := by
  unfold onWrite
  split
  · exact ⟨[], (Wrote.refl s).ran ios⟩
  · exact ⟨[], (removeClient_wrote s).ran ios⟩
  · rename_i n
    simp only
    split
    · obtain ⟨calls, handed, executes, sent⟩ :=
        processLoop_ran _ ios (elRemoveWrite (resetWbuf (advance n s)))
      exact ⟨calls, handed, executes, (advance_wrote n s).sent.trans sent⟩
    · exact ⟨[], (advance_wrote n s).ran ios⟩

end ByteKV.Accounting
